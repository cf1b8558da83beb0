import ZenohPico.Collections.HashMap
import ZenohPico.Foundations.FuelLoop
import Mathlib.Data.List.Basic

/-!
Lists of keys and values read into a map (`src/protocol/config.c`).

The list is read from the front. A value ends in front of the next separator, but the search for it
leaves out the last byte of the list, so that a separator at the end goes into the last value. The
first unknown key ends the reading. Without memory for a value the same component is read again, for
as long as there is none. `strIntmapFromStrn_iff` says when the map holds the values of the list
nevertheless.
-/

namespace ZenohPico.Protocol

open Collections Foundations List Option

/-- `_z_str_intmapping_t` -/
structure StrIntmapping where
  key : UInt8
  str : List UInt8

/-- `_z_str_intmap_t` -/
abbrev StrIntmap := HashMap UInt8 (List UInt8)

/-- `_z_str_intmap_make`, with the hash and the capacity of an integer map -/
def strIntmapMake : StrIntmap := .make 16 UInt8.toNat

/-- `INT_STR_MAP_LIST_SEPARATOR` -/
def intmapListSeparator : UInt8 := 0x3b

/-- `INT_STR_MAP_KEYVALUE_SEPARATOR` -/
def intmapKeyValueSeparator : UInt8 := 0x3d

/-- What `_z_str_intmap_from_strn` returns -/
inductive IntmapResult
  | ok
  | configInvalidValue
  | systemOutOfMemory
deriving DecidableEq, Repr

/-- A map under construction, with whether its buckets are allocated and how many allocations were
asked for so far -/
structure IntmapMemory where
  map : StrIntmap
  vals : Bool
  calls : ℕ

/-- The state of the loop: `rest` are the `curr_len` bytes from `start` on. -/
structure IntmapScan where
  mem : IntmapMemory
  rest : List UInt8
  ret : IntmapResult

section Source

variable (alloc : ℕ → Bool) (argv : List StrIntmapping)

/-- The end of `_z_hashmap_insert`: the old value is gone before the entry and its place in the list
are allocated. -/
def hashmapInsertEntry (mem : IntmapMemory) (k : UInt8) (v : List UInt8) : IntmapMemory :=
  if alloc mem.calls then
    if alloc (mem.calls + 1) then
      { mem with map := mem.map.insert k v true, calls := mem.calls + 2 }
    else { mem with map := mem.map.remove k, calls := mem.calls + 2 }
  else { mem with map := mem.map.remove k, calls := mem.calls + 1 }

/-- `_z_hashmap_insert`, where the buckets come with the first entry -/
def hashmapInsert (mem : IntmapMemory) (k : UInt8) (v : List UInt8) : IntmapMemory :=
  if mem.vals then hashmapInsertEntry alloc mem k v
  else if alloc mem.calls then
    hashmapInsertEntry alloc { mem with vals := true, calls := mem.calls + 1 } k v
  else { mem with calls := mem.calls + 1 }

/-- `_z_str_intmap_insert` -/
def strIntmapInsert (mem : IntmapMemory) (k : UInt8) (v : List UInt8) : IntmapMemory :=
  if alloc mem.calls then hashmapInsert alloc { mem with calls := mem.calls + 1 } k v
  else { mem with calls := mem.calls + 1 }

/-- The key of a name, from the first mapping that has it -/
def keyOf (name : List UInt8) : Option UInt8 :=
  (argv.find? fun mapping ↦ mapping.str = name).map StrIntmapping.key

/-- A value and what is read after it. Of the bytes behind the separator of key and value, the last
is not searched for the separator of the list. -/
def valueSplit (value : List UInt8) : List UInt8 × List UInt8 :=
  match ((intmapKeyValueSeparator :: value).take value.length).idxOf? intmapListSeparator with
  | none => (value, [])
  | some valueEnd => (value.take (valueEnd - 1), value.drop valueEnd)

/-- `_z_str_n_copy`, which ends at a terminator inside the value -/
def strNCopy (value : List UInt8) : List UInt8 := value.takeWhile (· ≠ 0)

/-- One pass of the loop of `_z_str_intmap_from_strn` -/
def strIntmapPass (s : IntmapScan) : Pass IntmapScan (IntmapResult × StrIntmap) :=
  if s.rest = [] then .done (s.ret, s.mem.map)
  else
    match s.rest.idxOf? intmapKeyValueSeparator with
    | none => .done (.configInvalidValue, s.mem.map)
    | some keyEnd =>
      match keyOf argv (s.rest.take keyEnd) with
      | none => .done (s.ret, s.mem.map)
      | some key =>
        let (value, rest) := valueSplit (s.rest.drop (keyEnd + 1))
        let mem := { s.mem with calls := s.mem.calls + 1 }
        if alloc s.mem.calls then
          .next { mem := strIntmapInsert alloc mem key (strNCopy value), rest, ret := s.ret }
        else .next { s with mem, ret := .systemOutOfMemory }

/-- `_z_str_intmap_from_strn`, with a budget of passes. The answers of the allocator are given by
the number of the request. -/
def strIntmapFromStrn (s : List UInt8) (budget : ℕ) : Option (IntmapResult × StrIntmap) :=
  runLoop (fun scan ↦ some (strIntmapPass alloc argv scan)) budget
    { mem := { map := strIntmapMake, vals := false, calls := 0 }, rest := s, ret := .ok }

end Source

/-! ### Lists of components -/

/-- A component of a list -/
structure Component where
  name : List UInt8
  value : List UInt8
  name_free : intmapKeyValueSeparator ∉ name ∧ intmapListSeparator ∉ name
  value_free : intmapListSeparator ∉ value ∧ 0 ∉ value

def Component.text (c : Component) : List UInt8 :=
  c.name ++ intmapKeyValueSeparator :: c.value

/-- The components with a separator between them, and one behind the last if there is a trailing
one -/
def componentsText : List Component → Bool → List UInt8
  | [], _ => []
  | [c], trailing => c.text ++ if trailing then [intmapListSeparator] else []
  | c :: next :: cs, trailing =>
    c.text ++ intmapListSeparator :: componentsText (next :: cs) trailing

section Condition

variable (alloc : ℕ → Bool) (argv : List StrIntmapping)

/-- The components with a known key, by that key -/
def knownValues (components : List Component) : List (UInt8 × List UInt8) :=
  components.filterMap fun c ↦ (keyOf argv c.name).map fun key ↦ (key, c.value)

/-- The value of the last component of a key -/
def latestValue (values : List (UInt8 × List UInt8)) (key : UInt8) : Option (List UInt8) :=
  (values.filter fun e ↦ e.1 = key).getLast?.map Prod.snd

/-- The map holds the value of each key, wherever the function returns. -/
structure IntmapExact (components : List Component) (trailing : Bool) : Prop where
  terminates : Terminates (strIntmapFromStrn alloc argv (componentsText components trailing))
  holds : ∀ budget map,
    strIntmapFromStrn alloc argv (componentsText components trailing) budget = some (.ok, map) →
      ∀ key, map.get key = latestValue (knownValues argv components) key

/-- The components in front of the first unknown key, by their keys. Where the last of the list is
one of them, its value has the trailing separator. -/
def readComponents : List Component → Bool → List (UInt8 × List UInt8)
  | [], _ => []
  | c :: cs, trailing =>
    match keyOf argv c.name with
    | none => []
    | some key =>
      (key, if cs = [] ∧ trailing then c.value ++ [intmapListSeparator] else c.value) ::
        readComponents cs trailing

/-- What comes of the insertion of a value: it is stored, its key has no value any more, or all
stays as it was. -/
inductive Insertion
  | stored
  | dropped
  | lost
deriving DecidableEq, Repr

/-- An insertion as far as its allocations go: what comes of it, whether there are buckets then, and
the number of requests so far -/
def insertion (vals : Bool) (calls : ℕ) : Insertion × Bool × ℕ :=
  if alloc calls then
    if vals then entry (calls + 1)
    else if alloc (calls + 1) then entry (calls + 2)
    else (.lost, false, calls + 2)
  else (.lost, vals, calls + 1)
where
  entry (calls : ℕ) : Insertion × Bool × ℕ :=
    if alloc calls then (if alloc (calls + 1) then .stored else .dropped, true, calls + 2)
    else (.dropped, true, calls + 1)

/-- Each of `n` values gets its memory, after finitely many refusals. -/
inductive Served : ℕ → Bool → ℕ → Prop
  | none (vals : Bool) (calls : ℕ) : Served 0 vals calls
  | refused {n : ℕ} {vals : Bool} {calls : ℕ} :
    alloc calls = false → Served (n + 1) vals (calls + 1) → Served (n + 1) vals calls
  | granted {n : ℕ} {vals : Bool} {calls : ℕ} : alloc calls = true →
    Served n (insertion alloc vals (calls + 1)).2.1 (insertion alloc vals (calls + 1)).2.2 →
      Served (n + 1) vals calls

/-- Each of `n` values gets its memory at once, and this comes of their insertions. -/
inductive ServedAtOnce : List Insertion → Bool → ℕ → Prop
  | nil (vals : Bool) (calls : ℕ) : ServedAtOnce [] vals calls
  | cons {is : List Insertion} {vals : Bool} {calls : ℕ} : alloc calls = true →
    ServedAtOnce is (insertion alloc vals (calls + 1)).2.1 (insertion alloc vals (calls + 1)).2.2 →
      ServedAtOnce ((insertion alloc vals (calls + 1)).1 :: is) vals calls

/-- What insertions leave under a key that had the value `v` -/
def valueAfter (key : UInt8) : Option (List UInt8) → List (UInt8 × List UInt8) → List Insertion →
    Option (List UInt8)
  | v, e :: values, i :: is =>
    valueAfter key
      (if e.1 = key then
        match i with
        | .stored => some e.2
        | .dropped => none
        | .lost => v
      else v) values is
  | v, _, _ => v

/-- Every value that is read gets its memory in the end. If each of them gets it at once, then what
is inserted leaves each key with the value of its last component. -/
structure IntmapCondition (components : List Component) (trailing : Bool) : Prop where
  served : Served alloc (readComponents argv components trailing).length false 0
  latest : ∀ is, is.length = (readComponents argv components trailing).length →
    ServedAtOnce alloc is false 0 → ∀ key,
      valueAfter key none (readComponents argv components trailing) is =
        latestValue (knownValues argv components) key

end Condition

/-! ### One pass over a component -/

theorem idxOf?_append_cons {b : UInt8} {front : List UInt8} (h : b ∉ front) (rest : List UInt8) :
    (front ++ b :: rest).idxOf? b = some front.length := by
  rw [List.idxOf?, List.findIdx?_append, List.findIdx?_eq_none_iff.mpr
    (fun x hx ↦ by rw [beq_eq_false_iff_ne]; exact fun heq ↦ h (heq ▸ hx))]
  simp [List.findIdx?_cons]

section ValueSplit

variable {value : List UInt8} (hfree : intmapListSeparator ∉ value)

include hfree

theorem separator_not_mem : intmapListSeparator ∉ intmapKeyValueSeparator :: value := by
  rw [mem_cons, not_or]
  exact ⟨by decide, hfree⟩

theorem valueSplit_last : valueSplit value = (value, []) := by
  have hnone : ((intmapKeyValueSeparator :: value).take value.length).idxOf?
      intmapListSeparator = none :=
    List.idxOf?_eq_none_iff.mpr fun hmem ↦ separator_not_mem hfree (mem_of_mem_take hmem)
  rw [valueSplit, hnone]

/-- The separator at the end is not found. -/
theorem valueSplit_trailing :
    valueSplit (value ++ [intmapListSeparator]) = (value ++ [intmapListSeparator], []) := by
  have hwindow : (intmapKeyValueSeparator :: (value ++ [intmapListSeparator])).take
      (value ++ [intmapListSeparator]).length = intmapKeyValueSeparator :: value := by
    rw [← cons_append, length_append, length_singleton]
    exact take_left' (length_cons ..)
  rw [valueSplit, hwindow, List.idxOf?_eq_none_iff.mpr (separator_not_mem hfree)]

theorem valueSplit_append {more : List UInt8} (hmore : more ≠ []) :
    valueSplit (value ++ intmapListSeparator :: more) = (value, more) := by
  have hlen : 0 < more.length := length_pos_iff.mpr hmore
  have hwindow : (intmapKeyValueSeparator :: (value ++ intmapListSeparator :: more)).take
      (value ++ intmapListSeparator :: more).length =
        (intmapKeyValueSeparator :: value) ++
          intmapListSeparator :: more.take (more.length - 1) := by
    have hcount : (value ++ intmapListSeparator :: more).length =
        (intmapKeyValueSeparator :: value).length + (1 + (more.length - 1)) := by
      simp only [length_append, length_cons]
      omega
    rw [hcount, ← cons_append, take_length_add_append, Nat.add_comm 1,
      take_succ_cons]
  have hvalue : (value ++ intmapListSeparator :: more).take value.length = value := take_left
  have hrest : (value ++ intmapListSeparator :: more).drop (value.length + 1) = more := by
    rw [drop_append, drop_eq_nil_of_le (by omega)]
    simp
  simp only [valueSplit, hwindow, idxOf?_append_cons (separator_not_mem hfree), length_cons,
    Nat.add_sub_cancel, hvalue, hrest]

end ValueSplit

theorem componentsText_ne_nil (c : Component) (cs : List Component) (trailing : Bool) :
    componentsText (c :: cs) trailing ≠ [] := by
  cases cs <;> simp [componentsText, Component.text]

theorem strNCopy_of_free {value : List UInt8} (h : 0 ∉ value) : strNCopy value = value := by
  rw [strNCopy, takeWhile_eq_self_iff]
  intro b hb
  rw [decide_eq_true_eq]
  rintro rfl
  exact h hb

section Pass

variable (alloc : ℕ → Bool) (argv : List StrIntmapping)

/-- The value a component is read with -/
def readValue (c : Component) (cs : List Component) (trailing : Bool) : List UInt8 :=
  if cs = [] ∧ trailing then c.value ++ [intmapListSeparator] else c.value

theorem componentsText_cons (c : Component) (cs : List Component) (trailing : Bool) :
    ∃ tail, componentsText (c :: cs) trailing = c.name ++ intmapKeyValueSeparator :: tail ∧
      valueSplit tail = (readValue c cs trailing, componentsText cs trailing) := by
  have hfree := c.value_free.1
  cases cs with
  | nil =>
    cases trailing with
    | false =>
      refine ⟨c.value, by simp [componentsText, Component.text], ?_⟩
      rw [valueSplit_last hfree]
      simp [readValue, componentsText]
    | true =>
      refine ⟨c.value ++ [intmapListSeparator], by simp [componentsText, Component.text], ?_⟩
      rw [valueSplit_trailing hfree]
      simp [readValue, componentsText]
  | cons next cs =>
    refine ⟨c.value ++ intmapListSeparator :: componentsText (next :: cs) trailing,
      by simp [componentsText, Component.text], ?_⟩
    rw [valueSplit_append hfree (componentsText_ne_nil next cs trailing)]
    simp [readValue]

theorem strNCopy_readValue (c : Component) (cs : List Component) (trailing : Bool) :
    strNCopy (readValue c cs trailing) = readValue c cs trailing := by
  refine strNCopy_of_free ?_
  rw [readValue]
  split_ifs
  · rw [mem_append, not_or]
    exact ⟨c.value_free.2, by decide⟩
  · exact c.value_free.2

/-- A pass stores the value of the first component, unless its key is unknown or there is no
memory for it. -/
theorem strIntmapPass_cons (mem : IntmapMemory) (c : Component) (cs : List Component)
    (trailing : Bool) (ret : IntmapResult) :
    strIntmapPass alloc argv ⟨mem, componentsText (c :: cs) trailing, ret⟩ =
      match keyOf argv c.name with
      | none => .done (ret, mem.map)
      | some key =>
        if alloc mem.calls then
          .next ⟨strIntmapInsert alloc { mem with calls := mem.calls + 1 } key
            (readValue c cs trailing), componentsText cs trailing, ret⟩
        else
          .next ⟨{ mem with calls := mem.calls + 1 }, componentsText (c :: cs) trailing,
            .systemOutOfMemory⟩ := by
  obtain ⟨tail, htext, hsplit⟩ := componentsText_cons c cs trailing
  have hne := componentsText_ne_nil c cs trailing
  have hfound := idxOf?_append_cons c.name_free.1 tail
  have hname : (c.name ++ intmapKeyValueSeparator :: tail).take c.name.length = c.name :=
    take_left
  have hdrop : (c.name ++ intmapKeyValueSeparator :: tail).drop (c.name.length + 1) = tail := by
    rw [drop_append, drop_eq_nil_of_le (by omega)]
    simp
  rw [strIntmapPass, if_neg hne]
  simp only [htext, hfound, hname, hdrop, hsplit, strNCopy_readValue]

/-- What an insertion does, by its outcome -/
theorem strIntmapInsert_eq (mem : IntmapMemory) (k : UInt8) (v : List UInt8) :
    strIntmapInsert alloc mem k v =
      { map :=
          match (insertion alloc mem.vals mem.calls).1 with
          | .stored => mem.map.insert k v true
          | .dropped => mem.map.remove k
          | .lost => mem.map
        vals := (insertion alloc mem.vals mem.calls).2.1
        calls := (insertion alloc mem.vals mem.calls).2.2 } := by
  have hentry : ∀ m : IntmapMemory, m.vals = true → hashmapInsertEntry alloc m k v =
      { map :=
          match (insertion.entry alloc m.calls).1 with
          | .stored => m.map.insert k v true
          | .dropped => m.map.remove k
          | .lost => m.map
        vals := (insertion.entry alloc m.calls).2.1
        calls := (insertion.entry alloc m.calls).2.2 } := by
    intro m hvals
    rw [hashmapInsertEntry, insertion.entry]
    split_ifs <;> simp [hvals]
  rw [strIntmapInsert, insertion]
  by_cases hkey : alloc mem.calls = true
  · rw [if_pos hkey, if_pos hkey, hashmapInsert]
    by_cases hvals : mem.vals = true
    · rw [if_pos hvals, if_pos hvals]
      exact hentry { mem with calls := mem.calls + 1 } hvals
    · rw [if_neg hvals, if_neg hvals]
      by_cases hbuckets : alloc (mem.calls + 1) = true
      · rw [if_pos hbuckets, if_pos hbuckets, hentry _ rfl]
      · rw [if_neg hbuckets, if_neg hbuckets]
        simp only [Bool.not_eq_true] at hvals
        simp [hvals]
  · rw [if_neg hkey, if_neg hkey]

end Pass

/-! ### The whole list -/

section Run

variable {alloc : ℕ → Bool} {argv : List StrIntmapping} {mem : IntmapMemory} {c : Component}
  {cs : List Component} {trailing : Bool} {ret : IntmapResult} {key : UInt8}
  {r : IntmapResult × StrIntmap}

/-- The loop ends from this state. -/
abbrev IntmapEnds (alloc : ℕ → Bool) (argv : List StrIntmapping) (mem : IntmapMemory)
    (components : List Component) (trailing : Bool) (ret : IntmapResult)
    (r : IntmapResult × StrIntmap) : Prop :=
  Ends (strIntmapPass alloc argv) ⟨mem, componentsText components trailing, ret⟩ r

theorem ends_nil : IntmapEnds alloc argv mem [] trailing ret r ↔ r = (ret, mem.map) :=
  ends_of_done (by rw [componentsText, strIntmapPass, if_pos rfl])

theorem ends_unknown (hkey : keyOf argv c.name = none) :
    IntmapEnds alloc argv mem (c :: cs) trailing ret r ↔ r = (ret, mem.map) :=
  ends_of_done (by rw [strIntmapPass_cons, hkey])

theorem ends_refused (hkey : keyOf argv c.name = some key) (halloc : alloc mem.calls = false) :
    IntmapEnds alloc argv mem (c :: cs) trailing ret r ↔
      IntmapEnds alloc argv { mem with calls := mem.calls + 1 } (c :: cs) trailing
        .systemOutOfMemory r := by
  refine ends_of_next ?_
  rw [strIntmapPass_cons, hkey]
  exact if_neg (Bool.not_eq_true _ ▸ halloc)

theorem ends_granted (hkey : keyOf argv c.name = some key) (halloc : alloc mem.calls = true) :
    IntmapEnds alloc argv mem (c :: cs) trailing ret r ↔
      IntmapEnds alloc argv (strIntmapInsert alloc { mem with calls := mem.calls + 1 } key
        (readValue c cs trailing)) cs trailing ret r := by
  refine ends_of_next ?_
  rw [strIntmapPass_cons, hkey]
  exact if_pos halloc

theorem readComponents_unknown (hkey : keyOf argv c.name = none) :
    readComponents argv (c :: cs) trailing = [] := by
  rw [readComponents, hkey]

theorem readComponents_known (hkey : keyOf argv c.name = some key) :
    readComponents argv (c :: cs) trailing =
      (key, readValue c cs trailing) :: readComponents argv cs trailing := by
  rw [readComponents, hkey, readValue]

theorem known_of_readComponents {components : List Component} {n : ℕ}
    (h : n + 1 = (readComponents argv components trailing).length) :
    ∃ c cs key, components = c :: cs ∧ keyOf argv c.name = some key := by
  cases components with
  | nil => exact absurd h (by simp [readComponents])
  | cons c cs =>
    cases hkey : keyOf argv c.name with
    | none => exact absurd h (by simp [readComponents_unknown hkey])
    | some key => exact ⟨c, cs, key, rfl, hkey⟩

/-- Where each value gets its memory in the end, the loop ends. -/
theorem ends_of_served {n : ℕ} {vals : Bool} {calls : ℕ} (h : Served alloc n vals calls)
    {components : List Component} (hn : n = (readComponents argv components trailing).length)
    {map : StrIntmap} :
    ∃ r, IntmapEnds alloc argv ⟨map, vals, calls⟩ components trailing ret r := by
  induction h generalizing components map ret with
  | none vals calls =>
    cases components with
    | nil => exact ⟨_, ends_nil.mpr rfl⟩
    | cons c cs =>
      cases hkey : keyOf argv c.name with
      | none => exact ⟨_, (ends_unknown hkey).mpr rfl⟩
      | some key =>
        rw [readComponents_known hkey] at hn
        exact absurd hn (by simp)
  | refused halloc _ ih =>
    obtain ⟨c, cs, key, rfl, hkey⟩ := known_of_readComponents hn
    obtain ⟨r, hr⟩ := @ih .systemOutOfMemory (c :: cs) hn map
    exact ⟨r, (ends_refused hkey halloc).mpr hr⟩
  | granted halloc _ ih =>
    obtain ⟨c, cs, key, rfl, hkey⟩ := known_of_readComponents hn
    rw [readComponents_known hkey, length_cons, Nat.add_right_cancel_iff] at hn
    obtain ⟨r, hr⟩ := ih hn
    refine ⟨r, (ends_granted hkey halloc).mpr ?_⟩
    rw [strIntmapInsert_eq]
    exact hr

/-- Where the loop ends, each value has got its memory. -/
theorem served_of_ends {components : List Component}
    (h : IntmapEnds alloc argv mem components trailing ret r) :
    Served alloc (readComponents argv components trailing).length mem.vals mem.calls := by
  obtain ⟨budget, hrun⟩ := h
  induction budget generalizing mem components ret with
  | zero => cases hrun
  | succ budget ih =>
    cases components with
    | nil => exact .none _ _
    | cons c cs =>
      cases hkey : keyOf argv c.name with
      | none =>
        rw [readComponents_unknown hkey]
        exact .none _ _
      | some key =>
        rw [readComponents_known hkey]
        rw [runLoop, bind_some, strIntmapPass_cons, hkey] at hrun
        cases halloc : alloc mem.calls with
        | false =>
          simp only [halloc, Bool.false_eq_true, if_false] at hrun
          have hserved := ih hrun
          rw [readComponents_known hkey] at hserved
          exact .refused halloc hserved
        | true =>
          simp only [halloc, if_true] at hrun
          have hserved := ih hrun
          rw [strIntmapInsert_eq] at hserved
          exact .granted halloc hserved

/-- A failure is not forgotten. -/
theorem failed_of_ends {scan : IntmapScan} (hret : scan.ret ≠ .ok)
    (h : Ends (strIntmapPass alloc argv) scan r) : r.1 ≠ .ok := by
  obtain ⟨budget, hrun⟩ := h
  induction budget generalizing scan with
  | zero => cases hrun
  | succ budget ih =>
    rw [runLoop, bind_some] at hrun
    cases hpass : strIntmapPass alloc argv scan with
    | done r' =>
      rw [hpass] at hrun
      obtain rfl := some.inj hrun
      rw [strIntmapPass] at hpass
      grind
    | next scan' =>
      rw [hpass] at hrun
      have hret' : scan'.ret ≠ .ok := by
        rw [strIntmapPass] at hpass
        grind
      exact ih hret' hrun

/-- Where the function succeeds, each value has got its memory at once. -/
theorem servedAtOnce_of_ends {components : List Component} {map : StrIntmap}
    (h : IntmapEnds alloc argv mem components trailing ret (.ok, map)) :
    ∃ is, is.length = (readComponents argv components trailing).length ∧
      ServedAtOnce alloc is mem.vals mem.calls := by
  induction components generalizing mem ret with
  | nil => exact ⟨[], rfl, .nil _ _⟩
  | cons c cs ih =>
    cases hkey : keyOf argv c.name with
    | none =>
      rw [readComponents_unknown hkey]
      exact ⟨[], rfl, .nil _ _⟩
    | some key =>
      cases halloc : alloc mem.calls with
      | false =>
        rw [ends_refused hkey halloc] at h
        exact absurd rfl (failed_of_ends (by simp) h)
      | true =>
        rw [ends_granted hkey halloc] at h
        obtain ⟨is, hlen, hserved⟩ := ih h
        rw [strIntmapInsert_eq] at hserved
        rw [readComponents_known hkey]
        exact ⟨_, by rw [length_cons, length_cons, hlen], .cons halloc hserved⟩

/-- Where each value gets its memory at once, the map holds what the insertions leave. -/
theorem ends_of_servedAtOnce {is : List Insertion} {vals : Bool} {calls : ℕ}
    (h : ServedAtOnce alloc is vals calls) {components : List Component} {map : StrIntmap}
    (hlen : is.length = (readComponents argv components trailing).length)
    (hmap : map.Unrepeated) :
    ∃ map' : StrIntmap,
      IntmapEnds alloc argv ⟨map, vals, calls⟩ components trailing ret (ret, map') ∧
        ∀ key, map'.get key =
          valueAfter key (map.get key) (readComponents argv components trailing) is := by
  induction components generalizing is vals calls map with
  | nil =>
    exact ⟨map, ends_nil.mpr rfl, fun key ↦ by rw [readComponents, valueAfter]; simp⟩
  | cons c cs ih =>
    cases hkey : keyOf argv c.name with
    | none =>
      refine ⟨map, (ends_unknown hkey).mpr rfl, fun key ↦ ?_⟩
      rw [readComponents_unknown hkey, valueAfter]
      simp
    | some k =>
      rw [readComponents_known hkey] at hlen ⊢
      cases h with
      | nil => exact absurd hlen (by simp)
      | cons halloc htail =>
        rw [length_cons, length_cons, Nat.add_right_cancel_iff] at hlen
        have hstep : ∀ r, IntmapEnds alloc argv ⟨map, vals, calls⟩ (c :: cs) trailing ret r ↔ _ :=
          fun r ↦ ends_granted hkey halloc
        simp only [hstep, strIntmapInsert_eq, valueAfter]
        cases (insertion alloc vals (calls + 1)).1 with
        | stored =>
          obtain ⟨map', hends, hget⟩ := ih htail hlen (hmap.insert k (readValue c cs trailing))
          refine ⟨map', hends, fun key ↦ ?_⟩
          rw [hget, HashMap.get_insert]
          simp only [@eq_comm _ key k]
        | dropped =>
          obtain ⟨map', hends, hget⟩ := ih htail hlen (hmap.remove k)
          refine ⟨map', hends, fun key ↦ ?_⟩
          rw [hget, hmap.get_remove]
          simp only [@eq_comm _ key k]
        | lost =>
          obtain ⟨map', hends, hget⟩ := ih htail hlen hmap
          refine ⟨map', hends, fun key ↦ ?_⟩
          rw [hget, ite_self]

end Run

section Main

variable (alloc : ℕ → Bool) (argv : List StrIntmapping) (components : List Component)
  (trailing : Bool)

theorem strIntmapFromStrn_eq_some {r : IntmapResult × StrIntmap} :
    (∃ budget, strIntmapFromStrn alloc argv (componentsText components trailing) budget = some r) ↔
      IntmapEnds alloc argv ⟨strIntmapMake, false, 0⟩ components trailing .ok r :=
  Iff.rfl

/-- The function returns, and its map holds the values of the list where it succeeds, if and only if
every value that is read gets its memory and the values that are stored are those of the list. -/
theorem intmapExact_iff :
    IntmapExact alloc argv components trailing ↔
      IntmapCondition alloc argv components trailing := by
  have hfresh : strIntmapMake.Unrepeated := HashMap.unrepeated_make _ _
  constructor
  · rintro ⟨⟨budget, r, hrun⟩, hholds⟩
    refine ⟨served_of_ends ((strIntmapFromStrn_eq_some ..).mp ⟨budget, hrun⟩), ?_⟩
    intro is hlen hserved key
    obtain ⟨map, hends, hget⟩ := ends_of_servedAtOnce hserved hlen hfresh
    obtain ⟨budget, hrun⟩ := (strIntmapFromStrn_eq_some ..).mpr hends
    exact (hget key).symm.trans (hholds budget map hrun key)
  · rintro ⟨hserved, hlatest⟩
    constructor
    · obtain ⟨r, hr⟩ := ends_of_served hserved rfl
      obtain ⟨budget, hrun⟩ := (strIntmapFromStrn_eq_some ..).mpr hr
      exact ⟨budget, r, hrun⟩
    · intro budget map hrun key
      have hends := (strIntmapFromStrn_eq_some ..).mp ⟨budget, hrun⟩
      obtain ⟨is, hlen, honce⟩ := servedAtOnce_of_ends hends
      obtain ⟨map', hends', hget⟩ := ends_of_servedAtOnce honce hlen hfresh
      obtain rfl : map = map' := congrArg Prod.snd (hends.unique hends')
      exact (hget key).trans (hlatest is hlen honce key)

end Main

/-! ### With memory for everything -/

section Memory

variable {argv : List StrIntmapping} {components : List Component} {trailing : Bool}

theorem insertion_of_memory (vals : Bool) (calls : ℕ) :
    (insertion (fun _ ↦ true) vals calls).1 = .stored := by
  cases vals <;> simp [insertion, insertion.entry]

theorem served_of_memory (n : ℕ) (vals : Bool) (calls : ℕ) :
    Served (fun _ ↦ true) n vals calls := by
  induction n generalizing vals calls with
  | zero => exact .none vals calls
  | succ n ih => exact .granted rfl (ih _ _)

theorem servedAtOnce_of_memory {is : List Insertion} {vals : Bool} {calls : ℕ} :
    ServedAtOnce (fun _ ↦ true) is vals calls ↔ is = List.replicate is.length .stored := by
  constructor
  · intro h
    induction h with
    | nil => rfl
    | cons _ _ ih => rw [insertion_of_memory, length_cons, replicate_succ, ← ih]
  · intro h
    induction is generalizing vals calls with
    | nil => exact .nil vals calls
    | cons i is ih =>
      rw [length_cons, replicate_succ] at h
      obtain ⟨rfl, his⟩ := List.cons.inj h
      rw [← insertion_of_memory vals (calls + 1)]
      exact .cons rfl (ih his)

theorem valueAfter_stored (key : UInt8) (v : Option (List UInt8))
    (values : List (UInt8 × List UInt8)) :
    valueAfter key v values (List.replicate values.length .stored) =
      (latestValue values key).or v := by
  induction values generalizing v with
  | nil => rfl
  | cons e values ih =>
    rw [length_cons, replicate_succ, valueAfter, ih]
    by_cases he : e.1 = key
    · cases hlast : (values.filter fun e ↦ e.1 = key).getLast? <;>
        simp [latestValue, he, hlast, List.getLast?_cons]
    · simp [latestValue, he]

/-- The components in front of the first unknown key -/
def knownPrefix (argv : List StrIntmapping) (components : List Component) : List Component :=
  components.takeWhile fun c ↦ (keyOf argv c.name).isSome

theorem latestValue_concat (values : List (UInt8 × List UInt8)) (key : UInt8) (v : List UInt8) :
    latestValue (values ++ [(key, v)]) key = some v := by
  simp [latestValue]

/-- A separator at the end changes a value that is read only if all keys are known. -/
theorem readComponents_eq (h : trailing = true → components ≠ [] →
    ∃ c ∈ components, keyOf argv c.name = none) :
    readComponents argv components trailing =
      knownValues argv (knownPrefix argv components) := by
  induction components with
  | nil => rfl
  | cons c cs ih =>
    cases hkey : keyOf argv c.name with
    | none => simp [readComponents_unknown hkey, knownPrefix, knownValues, hkey]
    | some key =>
      have hcs : trailing = true → ∃ c' ∈ cs, keyOf argv c'.name = none := by
        intro htrailing
        obtain ⟨c', hmem, hc'⟩ := h htrailing (cons_ne_nil _ _)
        rcases mem_cons.mp hmem with rfl | hmem
        · exact absurd (hkey.symm.trans hc') (some_ne_none key)
        · exact ⟨c', hmem, hc'⟩
      have hvalue : readValue c cs trailing = c.value := by
        rw [readValue, if_neg]
        rintro ⟨rfl, htrailing⟩
        obtain ⟨c', hmem, -⟩ := hcs htrailing
        exact not_mem_nil hmem
      rw [readComponents_known hkey, hvalue, ih fun htrailing _ ↦ hcs htrailing]
      simp [knownPrefix, knownValues, hkey]

theorem readComponents_trailing {front : List Component} {c : Component} {key : UInt8}
    (hfront : ∀ c ∈ front, keyOf argv c.name ≠ none) (hkey : keyOf argv c.name = some key) :
    readComponents argv (front ++ [c]) true =
      knownValues argv front ++ [(key, c.value ++ [intmapListSeparator])] := by
  induction front with
  | nil => simp [readComponents_known hkey, readValue, readComponents, knownValues]
  | cons c' front ih =>
    obtain ⟨key', hkey'⟩ := ne_none_iff_exists'.mp (hfront c' mem_cons_self)
    rw [cons_append, readComponents_known hkey',
      ih fun c hc ↦ hfront c (mem_cons_of_mem _ hc)]
    simp [knownValues, hkey', readValue]

/-- With memory for everything, the map holds the values of the list if and only if no trailing
separator is behind a value that is read, and no component behind an unknown key counts. -/
theorem intmapExact_iff_of_memory :
    IntmapExact (fun _ ↦ true) argv components trailing ↔
      (trailing = true → components ≠ [] → ∃ c ∈ components, keyOf argv c.name = none) ∧
        ∀ key, latestValue (knownValues argv (knownPrefix argv components)) key =
          latestValue (knownValues argv components) key := by
  have hcondition : IntmapCondition (fun _ ↦ true) argv components trailing ↔
      ∀ key, latestValue (readComponents argv components trailing) key =
        latestValue (knownValues argv components) key := by
    constructor
    · rintro ⟨-, hlatest⟩ key
      have hstored := hlatest _ length_replicate
        (servedAtOnce_of_memory.mpr (by rw [length_replicate])) key
      rwa [valueAfter_stored, or_none] at hstored
    · intro h
      refine ⟨served_of_memory _ _ _, fun is hlen hserved key ↦ ?_⟩
      rw [servedAtOnce_of_memory.mp hserved, hlen, valueAfter_stored, or_none, h]
  rw [intmapExact_iff, hcondition]
  by_cases htrailing : trailing = true → components ≠ [] →
      ∃ c ∈ components, keyOf argv c.name = none
  · rw [readComponents_eq htrailing]
    exact (and_iff_right htrailing).symm
  · refine iff_of_false (fun h ↦ ?_) fun h ↦ htrailing h.1
    simp only [Classical.not_imp, not_exists, not_and] at htrailing
    obtain ⟨rfl, hne, hknown⟩ := htrailing
    obtain ⟨front, c, rfl⟩ := (eq_nil_or_concat' components).resolve_left hne
    obtain ⟨key, hkey⟩ := ne_none_iff_exists'.mp (hknown c (by simp))
    have hread := h key
    rw [readComponents_trailing (fun c hc ↦ hknown c (by simp [hc])) hkey] at hread
    have hall : knownValues argv (front ++ [c]) = knownValues argv front ++ [(key, c.value)] := by
      simp [knownValues, hkey]
    rw [hall, latestValue_concat, latestValue_concat, some_inj] at hread
    exact absurd (congrArg List.length hread) (by simp)

end Memory

/-- Whatever the allocator answers, the condition is exact. With memory for everything, it is about
the trailing separator and the components behind an unknown key. -/
theorem strIntmapFromStrn_iff (argv : List StrIntmapping) (components : List Component)
    (trailing : Bool) :
    (∀ alloc, IntmapExact alloc argv components trailing ↔
      IntmapCondition alloc argv components trailing) ∧
    (IntmapExact (fun _ ↦ true) argv components trailing ↔
      (trailing = true → components ≠ [] → ∃ c ∈ components, keyOf argv c.name = none) ∧
        ∀ key, latestValue (knownValues argv (knownPrefix argv components)) key =
          latestValue (knownValues argv components) key) :=
  ⟨fun alloc ↦ intmapExact_iff alloc argv components trailing, intmapExact_iff_of_memory⟩

/-- A list of one component with a separator behind it, `k=v;` -/
def trailingComponent : Component :=
  ⟨[0x6b], [0x76], ⟨by decide, by decide⟩, ⟨by decide, by decide⟩⟩

theorem strIntmapFromStrn_trailing :
    ¬IntmapExact (fun _ ↦ true) [⟨1, [0x6b]⟩] [trailingComponent] true := by
  intro h
  have hrun : ((strIntmapFromStrn (fun _ ↦ true) [⟨1, [0x6b]⟩]
      (componentsText [trailingComponent] true) 2).map fun r ↦ (r.1, r.2.get 1)) =
        some (.ok, some [0x76, 0x3b]) := by decide
  obtain ⟨⟨ret, map⟩, hsome, heq⟩ := map_eq_some_iff.mp hrun
  obtain ⟨rfl, hget⟩ := Prod.mk.inj heq
  have hvalue := (h.holds 2 map hsome 1).symm.trans hget
  exact absurd hvalue (by decide)

end ZenohPico.Protocol
