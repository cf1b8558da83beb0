import ZenohPico.Collections.NodeHeap
import ZenohPico.Collections.SortedMap

/-!
The sorted map of `src/collections/sortedmap.c` in memory: the list of its entries, with the walks
and the splices of the source.

Whatever allocations fail, every map is the list of a `SortedMap`, so that its keys stay in their
order. It also gives the values that were inserted last, as long as an insertion does not lose what
it replaces and does not report a node that it did not get.
-/

open List Option

namespace ZenohPico.Collections

open Foundations

variable {κ α : Type} [LinearOrder κ]

/-! ### What a map gives after an operation -/

namespace SortedMap

variable {m : SortedMap κ α} {k n : κ} {v : α} {es us : List (κ × α)}

/-- The entry of a key is found in front of a list, or behind its first entry. -/
theorem find?_cons_key (e : κ × α) (es : List (κ × α)) :
    (e :: es).find? (·.1 = n) = if n = e.1 then some e else es.find? (·.1 = n) := by
  split_ifs with hn
  · exact List.find?_cons_of_pos (p := fun x : κ × α ↦ x.1 = n) (decide_eq_true hn.symm)
  · refine List.find?_cons_of_neg (p := fun x : κ × α ↦ x.1 = n) ?_
    rw [decide_eq_true_iff]
    exact Ne.symm hn

theorem find?_insertEntry (es : List (κ × α)) : (insertEntry k v es).find? (·.1 = n) =
    if n = k then some (k, v) else es.find? (·.1 = n) := by
  induction es with
  | nil => rw [insertEntry, find?_cons_key]
  | cons e es ih =>
    unfold insertEntry
    by_cases heq : k = e.1
    · rw [if_pos heq, find?_cons_key, find?_cons_key (e := e)]
      by_cases hn : n = k
      · rw [if_pos hn, if_pos hn]
      · rw [if_neg hn, if_neg hn, if_neg fun he ↦ hn (he.trans heq.symm)]
    · by_cases hlt : k < e.1
      · rw [if_neg heq, if_pos hlt, find?_cons_key]
      rw [if_neg heq, if_neg hlt, find?_cons_key, find?_cons_key, ih]
      by_cases hn : n = e.1
      · rw [if_pos hn, if_pos hn, if_neg fun hk ↦ heq (hk.symm.trans hn)]
      · rw [if_neg hn, if_neg hn]

theorem get?_insert : (m.insert k v).get? n = if n = k then some v else m.get? n := by
  rw [get?, insert, find?_insertEntry]
  split_ifs
  · rfl
  · rfl

theorem get?_erase : (m.erase k).get? n = if n = k then none else m.get? n := by
  split_ifs with hn
  · rw [get?_eq_none_iff, mem_keys_erase, hn]
    exact fun hand ↦ hand.1 rfl
  · rw [get?, get?, erase]
    dsimp only
    congr 1
    induction m.entries with
    | nil => rfl
    | cons e es ih =>
      rw [eraseP_cons, find?_cons_key]
      by_cases he : e.1 = k
      · rw [decide_eq_true he, cond_true, if_neg fun hne ↦ hn (hne.trans he)]
      · rw [decide_eq_false he, cond_false, find?_cons_key, ih]

theorem find?_map_eq_some_iff (hsorted : (es.map Prod.fst).Pairwise (· < ·)) :
    (es.find? (·.1 = k)).map Prod.snd = some v ↔ (k, v) ∈ es := by
  induction es with
  | nil => exact iff_of_false (fun h ↦ nomatch h) not_mem_nil
  | cons e es ih =>
    rw [map_cons, pairwise_cons] at hsorted
    rw [find?_cons_key, mem_cons]
    split_ifs with hk
    · have hnot : (k, v) ∉ es := fun hmem ↦
        (hsorted.1 k (mem_map_of_mem hmem)).ne hk.symm
      rw [or_iff_left hnot, map_some, some_inj, Prod.ext_iff]
      exact ⟨fun hv ↦ ⟨hk, hv.symm⟩, fun hand ↦ hand.2.symm⟩
    · rw [ih hsorted.2, or_iff_right]
      exact fun he ↦ hk (congrArg Prod.fst he)

theorem get?_eq_some_iff : m.get? k = some v ↔ (k, v) ∈ m.entries := find?_map_eq_some_iff m.sorted

/-- The first entry has the least key. -/
theorem le_of_head? {e e' : κ × α} (he : m.entries.head? = some e) (hmem : e' ∈ m.entries) :
    e.1 ≤ e'.1 := by
  have hsorted := m.sorted
  obtain ⟨es, hes⟩ := List.head?_eq_some_iff.mp he
  rw [hes, map_cons, pairwise_cons] at hsorted
  rw [hes] at hmem
  rcases mem_cons.mp hmem with rfl | hmem
  · exact le_rfl
  · exact (hsorted.1 _ (mem_map_of_mem hmem)).le

/-- The keys behind the first entry are other ones. -/
theorem get?_of_entries {e : κ × α} {rest : SortedMap κ α} (h : m.entries = e :: rest.entries) :
    rest.get? n = if n = e.1 then none else m.get? n := by
  split_ifs with hn
  · rw [get?_eq_none_iff, hn]
    have hsorted := m.sorted
    rw [h, map_cons, pairwise_cons] at hsorted
    exact fun hmem ↦ lt_irrefl _ (hsorted.1 _ hmem)
  · rw [get?, get?, h, find?_cons_key, if_neg hn]

theorem entries_insert : (m.insert k v).entries = insertEntry k v m.entries := rfl

theorem entries_erase : (m.erase k).entries = m.entries.eraseP (·.1 = k) := rfl

theorem eq_of_entries {m' : SortedMap κ α} (h : m.entries = m'.entries) : m = m' := by
  cases m
  cases m'
  congr

/-- The values changed, with the same keys -/
def mapVal (f : α → α) (m : SortedMap κ α) : SortedMap κ α where
  entries := m.entries.map fun e ↦ (e.1, f e.2)
  sorted := by
    rw [List.map_map]
    exact m.sorted

theorem get?_mapVal (f : α → α) : (m.mapVal f).get? n = (m.get? n).map f := by
  rw [get?, get?, mapVal]
  dsimp only
  induction m.entries with
  | nil => rfl
  | cons e es ih =>
    rw [map_cons, find?_cons_key, find?_cons_key]
    split_ifs
    · rfl
    · exact ih

theorem entries_mapVal (f : α → α) :
    (m.mapVal f).entries = m.entries.map fun e ↦ (e.1, f e.2) := rfl

/-- Some of the entries -/
def restrict (m : SortedMap κ α) (es : List (κ × α)) (h : es.Sublist m.entries) : SortedMap κ α :=
  ⟨es, m.sorted.sublist (h.map Prod.fst)⟩

/-- An insertion behind entries with smaller keys -/
theorem insertEntry_append (h : ∀ e ∈ us, e.1 < k) (es : List (κ × α)) :
    insertEntry k v (us ++ es) = us ++ insertEntry k v es := by
  induction us with
  | nil => rfl
  | cons e us ih =>
    have hlt := h e mem_cons_self
    rw [cons_append, insertEntry, if_neg hlt.ne', if_neg hlt.not_gt,
      ih fun e he ↦ h e (mem_cons_of_mem _ he), cons_append]

/-- The entry of a key goes from behind entries with other keys. -/
theorem eraseP_append_cons (h : ∀ e ∈ us, e.1 ≠ k) (e : κ × α) (he : e.1 = k) (es : List (κ × α)) :
    (us ++ e :: es).eraseP (·.1 = k) = us ++ es := by
  induction us with
  | nil => rw [nil_append, eraseP_cons, decide_eq_true he, cond_true, nil_append]
  | cons u us ih =>
    rw [cons_append, eraseP_cons, decide_eq_false (h u mem_cons_self), cond_false,
      ih fun e he ↦ h e (mem_cons_of_mem _ he), cons_append]

/-- A search that goes past entries with other keys -/
theorem find?_append_key (h : ∀ e ∈ us, e.1 ≠ k) (es : List (κ × α)) :
    (us ++ es).find? (·.1 = k) = es.find? (·.1 = k) := by
  induction us with
  | nil => rfl
  | cons u us ih =>
    rw [cons_append, find?_cons_key, if_neg (h u mem_cons_self).symm,
      ih fun e he ↦ h e (mem_cons_of_mem _ he)]

end SortedMap

namespace NodeHeap

/-! ### The source's functions -/

variable (h : NodeHeap (κ × α))

/-- The walk of `_z_sortedmap_insert`: whether it ended at an entry with the key, and the node
before the place where it ended -/
def insertWalk (k : κ) : ℕ → Option ℕ → Option ℕ → Option (Bool × Option ℕ)
  | 0, _, _ => none
  | _ + 1, prev, none => some (false, prev)
  | fuel + 1, prev, some curr => do
    let (entry, next) ← h.node? curr
    if k = entry.1 then
      return (true, prev)
    else if k < entry.1 then
      return (false, prev)
    else insertWalk k fuel (some curr) next

/-- The walk of `_z_sortedmap_get` and `_z_sortedmap_remove`: the first entry with the key, and the
node before it -/
def keyWalk (k : κ) : ℕ → Option ℕ → Option ℕ → Option (Option ((κ × α) × Option ℕ))
  | 0, _, _ => none
  | _ + 1, _, none => some none
  | fuel + 1, prev, some curr => do
    let (entry, next) ← h.node? curr
    if k = entry.1 then
      return some (entry, prev)
    else keyWalk k fuel (some curr) next

/-- What `_z_sortedmap_insert` does once an entry with the key is dropped: the answer, the list of
the map, and the memory -/
def spliceEntry (a : Allocator) (vals prev : Option ℕ) (k : κ) (v : α) :
    Option (Option α × Option ℕ × NodeHeap (κ × α)) :=
  match h.malloc a with
  | (false, h) => some (none, vals, h)
  | (true, h) =>
    match prev with
    | none => do
      let (list, h) ← h.listPush a vals (k, v)
      if list.isNone then
        return (none, list, h)
      else
        return (some v, list, h)
    | some p => do
      let (list, h) ← h.listPushAfter a (some p) (k, v)
      if list.isNone then
        return (none, vals, h)
      else
        return (some v, vals, h)

/-- `_z_sortedmap_insert` -/
def sortedmapInsert (a : Allocator) (vals : Option ℕ) (k : κ) (v : α) (replace : Bool) :
    Option (Option α × Option ℕ × NodeHeap (κ × α)) := do
  let (found, prev) ← h.insertWalk k (h.live.card + 1) none vals
  if found then
    if replace then
      let (vals, h, _) ← h.listDropElement vals prev
      h.spliceEntry a vals prev k v
    else
      return (none, vals, h)
  else h.spliceEntry a vals prev k v

/-- `_z_sortedmap_get` -/
def sortedmapGet (vals : Option ℕ) (k : κ) : Option (Option α) :=
  (h.keyWalk k (h.live.card + 1) none vals).map fun found ↦ found.map fun (entry, _) ↦ entry.2

/-- `_z_sortedmap_remove` -/
def sortedmapRemove (vals : Option ℕ) (k : κ) : Option (Option ℕ × NodeHeap (κ × α)) := do
  match ← h.keyWalk k (h.live.card + 1) none vals with
  | none => return (vals, h)
  | some (_, prev) =>
    let (vals, h, _) ← h.listDropElement vals prev
    return (vals, h)

/-- `_z_sortedmap_pop_first` -/
def sortedmapPopFirst (vals : Option ℕ) : Option (Option (κ × α) × Option ℕ × NodeHeap (κ × α)) :=
  match vals with
  | none => some (none, none, h)
  | some l => do
    let (entry, _) ← h.node? l
    let (vals, h, _) ← h.listDropElement (some l) none
    return (some entry, vals, h)

/-- `_z_sortedmap_copy`: whether it succeeds, the list of `dst`, and the memory. Cloning a value is
taken not to fail. -/
def sortedmapCopy (a : Allocator) (cloneVal : α → α) (dst src : Option ℕ) :
    Option (Bool × Option ℕ × NodeHeap (κ × α)) :=
  match src with
  | none => some (true, dst, h)
  | some _ => do
    let (vals, h) ← h.listClone a (fun entry ↦ (entry.1, cloneVal entry.2)) src
    return (vals.isSome, vals, h)

/-- `_z_sortedmap_iterator_t` -/
structure SortedMapIterator where
  vals : Option ℕ
  listPtr : Option ℕ
  initialized : Bool

/-- `_z_sortedmap_iterator_make` -/
def iteratorMake (vals : Option ℕ) : SortedMapIterator := ⟨vals, vals, false⟩

/-- The entry that an iterator goes to -/
def iteratorMove (iter : SortedMapIterator) : Option (Option ℕ) :=
  if iter.initialized then
    match iter.listPtr with
    | none => some none
    | some l => (h.node? l).map Prod.snd
  else some iter.vals

/-- `_z_sortedmap_iterator_next`, with the entry -/
def iteratorNext (iter : SortedMapIterator) : Option (Option (κ × α) × SortedMapIterator) :=
  match h.iteratorMove iter with
  | none => none
  | some none => some (none, ⟨iter.vals, none, true⟩)
  | some (some l) => (h.node? l).map fun (entry, _) ↦ (some entry, ⟨iter.vals, some l, true⟩)

/-- The entries of an iteration until there is no next one -/
def iterateLoop : ℕ → SortedMapIterator → Option (List (κ × α))
  | 0, _ => none
  | fuel + 1, iter =>
    match h.iteratorNext iter with
    | none => none
    | some (none, _) => some []
    | some (some entry, iter) => (iterateLoop fuel iter).map (entry :: ·)

def sortedmapIterate (vals : Option ℕ) : Option (List (κ × α)) :=
  h.iterateLoop (h.live.card + 1) (iteratorMake vals)

/-- An insertion that replaces an entry gets its memory, and one of a new first key does if it gets
the memory for the entry. -/
def InsertFits (a : Allocator) (vals : Option ℕ) (k : κ) (replace : Bool) : Prop :=
  (∀ v, h.sortedmapGet vals k = some (some v) → replace = true →
    a.memory h.mallocs = true ∧ a.memory (h.mallocs + 1) = true) ∧
  ∀ c, vals = some c → k < (h.val c).1 → a.memory h.mallocs = true → a.memory (h.mallocs + 1) = true

/-- A copy of entries gets the memory for all of them, or for none of them where there was nothing
before, and nothing is copied to nothing only. -/
def CopyFits (a : Allocator) (dst src : Option ℕ) : Prop :=
  (src = none → dst = none) ∧ ∀ es, h.sortedmapIterate src = some es →
    (∀ j < es.length, a.memory (h.mallocs + j) = true) ∨
      dst = none ∧ ∀ j < es.length, a.memory (h.mallocs + j) = false

/-! ### The walks and the splice -/

section Specs

variable {h} {h' : NodeHeap (κ × α)} {a : Allocator} {vals prev : Option ℕ} {x y u w l : List ℕ}
  {es us ws : List (κ × α)} {c : ℕ} {k : κ} {v : α} {m : SortedMap κ α}

/-- The walk of an insertion goes past the smaller keys. -/
theorem insertWalk_spec {fuel : ℕ} (hl : h.IsList vals (x ++ y) es) (hfuel : y.length < fuel) :
    ∃ u w found, y = u ++ w ∧
      h.insertWalk k fuel x.getLast? y.head? = some (found, (x ++ u).getLast?) ∧
      (∀ i ∈ u, (h.val i).1 < k) ∧ (found = true → ∃ c w', w = c :: w' ∧ (h.val c).1 = k) ∧
      (found = false → ∀ c w', w = c :: w' → k < (h.val c).1) := by
  induction y generalizing x fuel with
  | nil =>
    obtain ⟨fuel, rfl⟩ := Nat.exists_eq_succ_of_ne_zero (Nat.ne_zero_of_lt hfuel)
    refine ⟨[], [], false, rfl, ?_, fun i hi ↦ absurd hi not_mem_nil,
      fun hfound ↦ absurd hfound Bool.false_ne_true,
      fun _ c w' hw ↦ absurd hw (cons_ne_nil c w').symm⟩
    rw [append_nil]
    rfl
  | cons c y ih =>
    obtain ⟨fuel, rfl⟩ := Nat.exists_eq_succ_of_ne_zero (Nat.ne_zero_of_lt hfuel)
    have hc : c ∈ h.live := hl.live c (mem_append_right _ mem_cons_self)
    have hnext : h.next c = y.head? := hl.next_eq
    rw [List.head?_cons, insertWalk, node?_bind hc]
    dsimp only
    rcases lt_trichotomy k (h.val c).1 with hlt | heq | hgt
    · rw [if_neg hlt.ne, if_pos hlt]
      refine ⟨[], c :: y, false, rfl, ?_, fun i hi ↦ absurd hi not_mem_nil,
        fun hfound ↦ absurd hfound Bool.false_ne_true, fun _ d w' hw ↦ ?_⟩
      · rw [append_nil]
        rfl
      · rwa [← (List.cons.inj hw).1]
    · rw [if_pos heq]
      refine ⟨[], c :: y, true, rfl, ?_, fun i hi ↦ absurd hi not_mem_nil,
        fun _ ↦ ⟨c, y, rfl, heq.symm⟩, fun hfound ↦ absurd hfound.symm Bool.false_ne_true⟩
      rw [append_nil]
      rfl
    · rw [if_neg hgt.ne', if_neg hgt.not_gt, hnext]
      rw [append_cons] at hl
      obtain ⟨u, w, found, rfl, hwalk, hu, hw, hw'⟩ := ih hl (Nat.lt_of_succ_lt_succ hfuel)
      rw [List.getLast?_concat] at hwalk
      refine ⟨c :: u, w, found, rfl, ?_, fun i hi ↦ ?_, hw, hw'⟩
      · rw [hwalk, append_assoc, singleton_append]
      · rcases mem_cons.mp hi with rfl | hi
        · exact hgt
        · exact hu i hi

/-- The walk of a search goes past the other keys. -/
theorem keyWalk_spec {fuel : ℕ} (hl : h.IsList vals (x ++ y) es) (hfuel : y.length < fuel) :
    h.keyWalk k fuel x.getLast? y.head? = some none ∧ (∀ i ∈ y, (h.val i).1 ≠ k) ∨
      ∃ u c w, y = u ++ c :: w ∧
        h.keyWalk k fuel x.getLast? y.head? = some (some (h.val c, (x ++ u).getLast?)) ∧
        (∀ i ∈ u, (h.val i).1 ≠ k) ∧ (h.val c).1 = k := by
  induction y generalizing x fuel with
  | nil =>
    obtain ⟨fuel, rfl⟩ := Nat.exists_eq_succ_of_ne_zero (Nat.ne_zero_of_lt hfuel)
    exact .inl ⟨rfl, fun i hi ↦ absurd hi not_mem_nil⟩
  | cons c y ih =>
    obtain ⟨fuel, rfl⟩ := Nat.exists_eq_succ_of_ne_zero (Nat.ne_zero_of_lt hfuel)
    have hc : c ∈ h.live := hl.live c (mem_append_right _ mem_cons_self)
    have hnext : h.next c = y.head? := hl.next_eq
    rw [List.head?_cons, keyWalk, node?_bind hc]
    dsimp only
    by_cases heq : k = (h.val c).1
    · rw [if_pos heq]
      refine .inr ⟨[], c, y, rfl, ?_, fun i hi ↦ absurd hi not_mem_nil, heq.symm⟩
      rw [append_nil]
      rfl
    · rw [if_neg heq, hnext]
      rw [append_cons] at hl
      have hrest := ih hl (Nat.lt_of_succ_lt_succ hfuel)
      rw [List.getLast?_concat] at hrest
      rcases hrest with ⟨hwalk, hother⟩ | ⟨u, d, w, rfl, hwalk, hu, hd⟩
      · refine .inl ⟨hwalk, fun i hi ↦ ?_⟩
        rcases mem_cons.mp hi with rfl | hi
        · exact Ne.symm heq
        · exact hother i hi
      · refine .inr ⟨c :: u, d, w, rfl, ?_, fun i hi ↦ ?_, hd⟩
        · rw [hwalk, append_assoc, singleton_append]
        · rcases mem_cons.mp hi with rfl | hi
          · exact Ne.symm heq
          · exact hu i hi

omit [LinearOrder κ] in
theorem spliceEntry_of_memory (hl : h.IsList vals (u ++ w) es)
    (hentry : a.memory h.mallocs = true) (hnode : a.memory (h.mallocs + 1) = true) :
    ∃ vals' h' l', h.spliceEntry a vals u.getLast? k v = some (some v, vals', h') ∧
      h'.IsList vals' l' (u.map h.val ++ (k, v) :: w.map h.val) ∧ h.Becomes h' (u ++ w) l' := by
  have hmalloc : h.malloc a = (true, h.counted) := by rw [malloc, hentry]; rfl
  have hcounted := becomes_counted h (u ++ w)
  unfold spliceEntry
  rw [hmalloc]
  dsimp only
  rcases eq_nil_or_concat' u with rfl | ⟨u, q, rfl⟩
  · have hlist := hl.counted.withNode a (k, v)
    rw [← hl.vals] at hlist
    refine ⟨_, _, _, ?_, hlist, ?_⟩
    · rw [List.getLast?_nil]
      dsimp only
      rw [listPush_of_memory (h := h.counted) hnode, bind_eq_bind, bind_some]
      rfl
    · refine hcounted.trans ((becomes_withNode h.counted a (k, v) vals).mono
        (fun _ hi ↦ absurd hi not_mem_nil) fun i hi ↦ ?_)
      exact (mem_cons.mp hi).imp_left mem_singleton.mpr
  · have hl' := hl.counted
    rw [append_assoc, singleton_append] at hl' hcounted
    rw [append_assoc, singleton_append]
    obtain ⟨h', hpush, hlist, hbecomes, -⟩ := listPushAfter_of_memory hl' hnode (k, v)
    refine ⟨vals, h', _, ?_, hlist, hcounted.trans hbecomes⟩
    rw [List.getLast?_concat]
    dsimp only
    rw [hpush, bind_eq_bind, bind_some]
    rfl

omit [LinearOrder κ] in
/-- Without its memory an entry is not in the list. The answer is an error, but for one case: the
node was to be the first one of a list that has others. -/
theorem spliceEntry_of_none (hl : h.IsList vals (u ++ w) es)
    (hmem : ¬ (a.memory h.mallocs = true ∧ a.memory (h.mallocs + 1) = true)) :
    ∃ ans h', h.spliceEntry a vals u.getLast? k v = some (ans, vals, h') ∧
      h'.IsList vals (u ++ w) es ∧ h.Becomes h' (u ++ w) (u ++ w) ∧
      (ans = none ∨ a.memory h.mallocs = true ∧ u = [] ∧ w ≠ []) := by
  unfold spliceEntry
  cases hentry : a.memory h.mallocs with
  | false =>
    have hmalloc : h.malloc a = (false, h.counted) := by rw [malloc, hentry]; rfl
    rw [hmalloc]
    exact ⟨none, h.counted, rfl, hl.counted, becomes_counted h _, .inl rfl⟩
  | true =>
    have hmalloc : h.malloc a = (true, h.counted) := by rw [malloc, hentry]; rfl
    have hnode : a.memory h.counted.mallocs = false :=
      Bool.eq_false_of_not_eq_true fun hnode ↦ hmem ⟨hentry, hnode⟩
    have hbecomes := (becomes_counted h (u ++ w)).trans (becomes_counted h.counted (u ++ w))
    rw [hmalloc]
    dsimp only
    rcases eq_nil_or_concat' u with rfl | ⟨u, q, rfl⟩
    · rw [List.getLast?_nil]
      dsimp only
      rw [listPush_of_none hnode, bind_eq_bind, bind_some]
      cases w with
      | nil =>
        obtain rfl : vals = none := hl.chain
        exact ⟨none, h.counted.counted, rfl, hl.counted.counted, hbecomes, .inl rfl⟩
      | cons c w =>
        obtain rfl : vals = some c := hl.chain.1
        exact ⟨some v, h.counted.counted, rfl, hl.counted.counted, hbecomes,
          .inr ⟨rfl, rfl, cons_ne_nil c w⟩⟩
    · rw [List.getLast?_concat]
      dsimp only
      rw [listPushAfter_of_none hnode, bind_eq_bind, bind_some]
      exact ⟨none, h.counted.counted, rfl, hl.counted.counted, hbecomes, .inl rfl⟩

/-! ### What the functions do with a map -/

theorem sortedmapGet_spec (hl : h.IsList vals l m.entries) (k : κ) :
    h.sortedmapGet vals k = some (m.get? k) := by
  have hwalk := keyWalk_spec (x := []) (k := k) hl (Nat.lt_succ_of_le hl.length_le)
  rw [List.getLast?_nil, ← hl.chain.head_eq] at hwalk
  rw [sortedmapGet, SortedMap.get?, ← hl.vals]
  rcases hwalk with ⟨hwalk, hother⟩ | ⟨u, c, w, rfl, hwalk, hu, hc⟩
  · have hkeys : ∀ e ∈ l.map h.val, e.1 ≠ k := List.forall_mem_map.mpr hother
    have hnone := SortedMap.find?_append_key hkeys []
    rw [append_nil] at hnone
    rw [hwalk, hnone]
    rfl
  · have hkeys : ∀ e ∈ u.map h.val, e.1 ≠ k := List.forall_mem_map.mpr hu
    rw [hwalk, map_append, map_cons, SortedMap.find?_append_key hkeys,
      SortedMap.find?_cons_key, if_pos hc.symm]
    rfl

theorem sortedmapRemove_spec (hl : h.IsList vals l m.entries) (k : κ) :
    ∃ vals' h' l', h.sortedmapRemove vals k = some (vals', h') ∧
      h'.IsList vals' l' (m.erase k).entries ∧ h.Becomes h' l l' := by
  have hwalk := keyWalk_spec (x := []) (k := k) hl (Nat.lt_succ_of_le hl.length_le)
  rw [List.getLast?_nil, ← hl.chain.head_eq] at hwalk
  rw [sortedmapRemove, SortedMap.erase]
  rcases hwalk with ⟨hwalk, hother⟩ | ⟨u, c, w, rfl, hwalk, hu, hc⟩
  · have hsame : m.entries.eraseP (·.1 = k) = m.entries := by
      refine eraseP_of_forall_not fun e he ↦ ?_
      rw [← hl.vals] at he
      obtain ⟨i, hi, rfl⟩ := List.mem_map.mp he
      rw [decide_eq_true_iff]
      exact hother i hi
    dsimp only
    rw [hwalk, hsame]
    exact ⟨vals, h, l, rfl, hl, .refl h l⟩
  · have hkeys : ∀ e ∈ u.map h.val, e.1 ≠ k := List.forall_mem_map.mpr hu
    obtain ⟨vals', h', hdrop, hlist, hbecomes, -⟩ := listDropElement_spec hl
    refine ⟨vals', h', u ++ w, ?_, ?_, hbecomes⟩
    · rw [hwalk, bind_eq_bind, bind_some]
      dsimp only
      rw [nil_append, hdrop]
      rfl
    · dsimp only
      rw [← hl.vals, map_append, map_cons, SortedMap.eraseP_append_cons hkeys _ hc, ← map_append]
      exact hlist

theorem sortedmapPopFirst_spec (hl : h.IsList vals l m.entries) :
    ∃ vals' h' l', h.sortedmapPopFirst vals = some (m.entries.head?, vals', h') ∧
      h'.IsList vals' l' m.entries.tail ∧ h.Becomes h' l l' := by
  rw [← hl.vals]
  cases l with
  | nil =>
    obtain rfl : vals = none := hl.chain
    exact ⟨none, h, [], rfl, isList_nil, .refl h []⟩
  | cons c l =>
    obtain rfl : vals = some c := hl.chain.1
    obtain ⟨hdrop, hlist, hbecomes⟩ := listDropElement_head hl
    refine ⟨_, _, l, ?_, hlist, hbecomes⟩
    rw [sortedmapPopFirst, node?_bind (hl.live c mem_cons_self)]
    dsimp only
    rw [hdrop]
    rfl

omit [LinearOrder κ] in
/-- The rest of an iteration: the entries from the one on to which the iterator goes -/
theorem iterateLoop_spec {fuel : ℕ} {iter : SortedMapIterator} (hl : h.IsList vals y es)
    (hmove : h.iteratorMove iter = some vals) (hfuel : y.length < fuel) :
    h.iterateLoop fuel iter = some es := by
  induction y generalizing vals es iter fuel with
  | nil =>
    obtain ⟨fuel, rfl⟩ := Nat.exists_eq_succ_of_ne_zero (Nat.ne_zero_of_lt hfuel)
    obtain rfl : vals = none := hl.chain
    obtain rfl : es = [] := hl.vals.symm
    rw [iterateLoop, iteratorNext, hmove]
  | cons c y ih =>
    obtain ⟨fuel, rfl⟩ := Nat.exists_eq_succ_of_ne_zero (Nat.ne_zero_of_lt hfuel)
    obtain rfl : vals = some c := hl.chain.1
    obtain rfl : es = h.val c :: y.map h.val := hl.vals.symm
    have hc : c ∈ h.live := hl.live c mem_cons_self
    have hrest : h.IsList (h.next c) y (y.map h.val) := IsList.rest (x := []) hl
    have hmove' : h.iteratorMove ⟨iter.vals, some c, true⟩ = some (h.next c) := by
      rw [iteratorMove, if_pos rfl]
      dsimp only
      rw [node?_of_live hc]
      rfl
    rw [iterateLoop, iteratorNext, hmove]
    dsimp only
    rw [node?_of_live hc, map_some]
    dsimp only
    rw [ih hrest hmove' (Nat.lt_of_succ_lt_succ hfuel)]
    rfl

omit [LinearOrder κ] in
theorem sortedmapIterate_spec (hl : h.IsList vals l es) : h.sortedmapIterate vals = some es :=
  iterateLoop_spec hl rfl (Nat.lt_succ_of_le hl.length_le)

/-- Where an insertion gets its memory the entry is at its place. -/
theorem insertEntry_of_found (hu : ∀ i ∈ u, (h.val i).1 < k) (hc : (h.val c).1 = k) :
    SortedMap.insertEntry k v ((u ++ c :: w).map h.val) = u.map h.val ++ (k, v) :: w.map h.val := by
  have hkeys : ∀ e ∈ u.map h.val, e.1 < k := List.forall_mem_map.mpr hu
  rw [map_append, map_cons, SortedMap.insertEntry_append hkeys, SortedMap.insertEntry,
    if_pos hc.symm]

theorem insertEntry_of_notFound (hu : ∀ i ∈ u, (h.val i).1 < k)
    (hw : ∀ c w', w = c :: w' → k < (h.val c).1) :
    SortedMap.insertEntry k v ((u ++ w).map h.val) = u.map h.val ++ (k, v) :: w.map h.val := by
  have hkeys : ∀ e ∈ u.map h.val, e.1 < k := List.forall_mem_map.mpr hu
  rw [map_append, SortedMap.insertEntry_append hkeys]
  cases w with
  | nil => rfl
  | cons c w =>
    have hlt := hw c w rfl
    rw [map_cons, SortedMap.insertEntry, if_neg hlt.ne, if_pos hlt]

/-- The entry that a key has in the list is the one that a search gives. -/
theorem get?_of_found (hl : h.IsList vals (u ++ c :: w) m.entries)
    (hu : ∀ i ∈ u, (h.val i).1 < k) (hc : (h.val c).1 = k) : m.get? k = some (h.val c).2 := by
  have hkeys : ∀ e ∈ u.map h.val, e.1 ≠ k := List.forall_mem_map.mpr fun i hi ↦ (hu i hi).ne
  rw [SortedMap.get?, ← hl.vals, map_append, map_cons,
    SortedMap.find?_append_key hkeys, SortedMap.find?_cons_key, if_pos hc.symm]
  rfl

/-- An insertion leaves a map with its keys in their order, whatever memory it gets. It is done, or
it is not and says so, as long as it fits; with memory for its entry and its node it is done, unless
the key is there and its value is to stay. -/
theorem sortedmapInsert_spec (hl : h.IsList vals l m.entries) (a : Allocator) (k : κ) (v : α)
    (replace : Bool) : ∃ ans vals' h' l', ∃ m' : SortedMap κ α,
      h.sortedmapInsert a vals k v replace = some (ans, vals', h') ∧
      h'.IsList vals' l' m'.entries ∧ h.Becomes h' l l' ∧
      (h.InsertFits a vals k replace → ans = none ∧ m' = m ∨ ans = some v ∧ m' = m.insert k v) ∧
      (a.memory h.mallocs = true → a.memory (h.mallocs + 1) = true →
        replace = true ∨ m.get? k = none → ans = some v ∧ m' = m.insert k v) := by
  obtain ⟨u, w, found, hsplit, hwalk, hu, hfound, hnot⟩ :=
    insertWalk_spec (x := []) (k := k) hl (Nat.lt_succ_of_le hl.length_le)
  rw [List.getLast?_nil, nil_append, ← hl.chain.head_eq] at hwalk
  rw [sortedmapInsert, hwalk, bind_eq_bind, bind_some]
  dsimp only
  subst hsplit
  cases found with
  | false =>
    rw [if_neg Bool.false_ne_true]
    have hw := hnot rfl
    by_cases hmem : a.memory h.mallocs = true ∧ a.memory (h.mallocs + 1) = true
    · obtain ⟨vals', h', l', hsplice, hlist, hbecomes⟩ :=
        spliceEntry_of_memory (k := k) (v := v) hl hmem.1 hmem.2
      refine ⟨some v, vals', h', l', m.insert k v, hsplice, ?_, hbecomes, fun _ ↦ .inr ⟨rfl, rfl⟩,
        fun _ _ _ ↦ ⟨rfl, rfl⟩⟩
      rwa [SortedMap.entries_insert, ← hl.vals, insertEntry_of_notFound hu hw]
    · obtain ⟨ans, h', hsplice, hlist, hbecomes, hans⟩ :=
        spliceEntry_of_none (k := k) (v := v) hl hmem
      refine ⟨ans, vals, h', u ++ w, m, hsplice, hlist, hbecomes, fun hfits ↦ .inl ⟨?_, rfl⟩,
        fun hentry hnode _ ↦ absurd ⟨hentry, hnode⟩ hmem⟩
      refine hans.resolve_right ?_
      rintro ⟨hentry, rfl, hne⟩
      obtain ⟨c, w, rfl⟩ := exists_cons_of_ne_nil hne
      exact hmem ⟨hentry, hfits.2 c hl.chain.1 (hw c w rfl) hentry⟩
  | true =>
    rw [if_pos rfl]
    obtain ⟨c, w, rfl, hc⟩ := hfound rfl
    have hget := get?_of_found hl hu hc
    cases replace with
    | false =>
      rw [if_neg Bool.false_ne_true]
      refine ⟨none, vals, h, _, m, rfl, hl, .refl h _, fun _ ↦ .inl ⟨rfl, rfl⟩, fun _ _ hnew ↦ ?_⟩
      rw [hget] at hnew
      simp at hnew
    | true =>
      rw [if_pos rfl]
      obtain ⟨vals₁, h₁, hdrop, hlist₁, hbecomes₁, hmallocs₁⟩ := listDropElement_spec hl
      have hval₁ : (u ++ w).map h₁.val = (u ++ w).map h.val := hlist₁.vals
      rw [map_append, map_append] at hval₁
      obtain ⟨hvalu, hvalw⟩ := append_inj hval₁ (by rw [length_map, length_map])
      rw [hdrop, bind_eq_bind, bind_some]
      dsimp only
      by_cases hmem : a.memory h₁.mallocs = true ∧ a.memory (h₁.mallocs + 1) = true
      · obtain ⟨vals', h', l', hsplice, hlist, hbecomes⟩ :=
          spliceEntry_of_memory (k := k) (v := v) hlist₁ hmem.1 hmem.2
        refine ⟨some v, vals', h', l', m.insert k v, hsplice, ?_, hbecomes₁.trans hbecomes,
          fun _ ↦ .inr ⟨rfl, rfl⟩, fun _ _ _ ↦ ⟨rfl, rfl⟩⟩
        rwa [SortedMap.entries_insert, ← hl.vals, insertEntry_of_found hu hc, ← hvalu, ← hvalw]
      · obtain ⟨ans, h', hsplice, hlist, hbecomes, -⟩ :=
          spliceEntry_of_none (k := k) (v := v) hlist₁ hmem
        refine ⟨ans, vals₁, h', u ++ w, m.erase k, hsplice, ?_, hbecomes₁.trans hbecomes,
          fun hfits ↦ absurd ?_ hmem, fun hentry hnode _ ↦ absurd ?_ hmem⟩
        · have hkeys : ∀ e ∈ u.map h.val, e.1 ≠ k :=
            List.forall_mem_map.mpr fun i hi ↦ (hu i hi).ne
          rw [SortedMap.entries_erase, ← hl.vals, map_append, map_cons,
            SortedMap.eraseP_append_cons hkeys _ hc, ← map_append]
          exact hlist
        · rw [hmallocs₁]
          exact hfits.1 _ (by rw [sortedmapGet_spec hl, hget]) rfl
        · rw [hmallocs₁]
          exact ⟨hentry, hnode⟩

/-- A copy leaves a map with its keys in their order. It is done, or it is not and says so, as long
as it fits. -/
theorem sortedmapCopy_spec {mdst : SortedMap κ α} {dst : Option ℕ} {d : List ℕ}
    (hl : h.IsList vals l m.entries) (hdst : h.IsList dst d mdst.entries) (a : Allocator)
    (cloneVal : α → α) : ∃ ok vals' h' d', ∃ m' : SortedMap κ α,
      h.sortedmapCopy a cloneVal dst vals = some (ok, vals', h') ∧
      h'.IsList vals' d' m'.entries ∧ h.Becomes h' d d' ∧
      (h.CopyFits a dst vals → ok = false ∧ m' = mdst ∨ ok = true ∧ m' = m.mapVal cloneVal) := by
  have hempty : dst = none → mdst.entries = [] := by
    rintro rfl
    exact (isList_nil.unique hdst).symm
  cases hvals : vals with
  | none =>
    refine ⟨true, dst, h, d, mdst, rfl, hdst, .refl h d, fun hfits ↦ .inr ⟨rfl, ?_⟩⟩
    rw [hvals] at hl
    refine SortedMap.eq_of_entries ?_
    rw [hempty (hfits.1 rfl), SortedMap.entries_mapVal, ← isList_nil.unique hl, map_nil]
  | some c =>
    obtain ⟨new, h', n, hclone, hn, hbecomes, -⟩ :=
      listClone_spec (a := a) (fun entry ↦ (entry.1, cloneVal entry.2)) hl
    have hsub := supplied_sublist a.memory h.mallocs m.entries
    refine ⟨new.isSome, new, h', n, (m.restrict _ hsub).mapVal cloneVal, ?_, hn, ?_, ?_⟩
    · rw [sortedmapCopy, ← hvals, hclone]
      rfl
    · exact hbecomes.mono (fun _ hi ↦ absurd hi not_mem_nil) fun _ hi ↦ .inl hi
    · intro hfits
      have hiterate := sortedmapIterate_spec hl
      rw [hvals] at hiterate
      rcases hfits.2 m.entries hiterate with hall | ⟨hnone, hnever⟩
      · have hsame : m.restrict _ hsub = m := SortedMap.eq_of_entries (supplied_eq_self hall)
        refine .inr ⟨?_, by rw [hsame]⟩
        rw [hn.isSome_iff, Ne, map_eq_nil_iff, supplied_eq_self hall, ← Ne, ← hl.isSome_iff, hvals]
        rfl
      · have hnil := supplied_eq_nil hnever
        refine .inl ⟨?_, SortedMap.eq_of_entries ?_⟩
        · rw [← Bool.not_eq_true, hn.isSome_iff, not_not, map_eq_nil_iff]
          exact hnil
        · rw [SortedMap.entries_mapVal, SortedMap.restrict, hempty hnone]
          exact map_eq_nil_iff.mpr hnil

end Specs

end NodeHeap

end ZenohPico.Collections
