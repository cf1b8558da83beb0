import Mathlib.Data.List.Flatten
import Mathlib.Data.List.Induction
import Mathlib.Data.List.Nodup
import Mathlib.Data.List.TakeWhile
import Mathlib.Logic.Function.Basic

/-!
The hash map (`src/collections/hashmap.c`) and the maps from small integers to strings
(`include/zenoh-pico/collections/intmap.h`).

A bucket is a list with the newest entry in front. What is found under a key is the rest of its
bucket, from the newest entry of the key on.
-/

open List Option

namespace ZenohPico.Collections

variable {κ α : Type}

/-- `_z_hashmap_t`. The array of buckets is allocated with the first entry; until then all of them
are empty. -/
structure HashMap (κ α : Type) where
  capacity : ℕ
  fHash : κ → ℕ
  vals : ℕ → List (κ × α)

variable {k : κ}

namespace HashMap

/-- `_z_hashmap_make` -/
def make (capacity : ℕ) (fHash : κ → ℕ) : HashMap κ α := ⟨capacity, fHash, fun _ ↦ []⟩

variable (map : HashMap κ α)

/-- The bucket of a key -/
def idx (k : κ) : ℕ := map.fHash k % map.capacity

def setBucket (i : ℕ) (entries : List (κ × α)) : HashMap κ α :=
  { map with vals := Function.update map.vals i entries }

variable [DecidableEq κ]

/-- `_z_hashmap_remove`, of the newest entry -/
def remove (k : κ) : HashMap κ α :=
  map.setBucket (map.idx k) ((map.vals (map.idx k)).eraseP fun e ↦ e.1 = k)

/-- `_z_hashmap_insert`, where nothing runs out of memory -/
def insert (k : κ) (v : α) (replace : Bool) : HashMap κ α :=
  let map := if replace then map.remove k else map
  map.setBucket (map.idx k) ((k, v) :: map.vals (map.idx k))

/-- `_z_hashmap_get_all`: the list whose head `_z_list_find` has found -/
def getAll (k : κ) : List (κ × α) := (map.vals (map.idx k)).dropWhile fun e ↦ e.1 ≠ k

/-- `_z_hashmap_get` -/
def get (k : κ) : Option α := (map.getAll k).head?.map Prod.snd

@[simp] theorem capacity_insert (k : κ) (v : α) (replace : Bool) :
    (map.insert k v replace).capacity = map.capacity := by
  cases replace <;> rfl

@[simp] theorem fHash_insert (k : κ) (v : α) (replace : Bool) :
    (map.insert k v replace).fHash = map.fHash := by
  cases replace <;> rfl

theorem vals_insert (k : κ) (v : α) (replace : Bool) (i : ℕ) : (map.insert k v replace).vals i =
      if i = map.idx k then
        (k, v) :: (if replace then (map.vals i).eraseP (fun e ↦ e.1 = k) else map.vals i)
      else map.vals i := by
  by_cases hi : i = map.idx k
  · subst hi
    cases replace <;> simp [insert, remove, setBucket, idx]
  · rw [if_neg hi]
    cases replace with
    | true => exact (Function.update_of_ne hi _ _).trans (Function.update_of_ne hi _ _)
    | false => exact Function.update_of_ne hi _ _

/-! ### One value of a key -/

theorem get_eq_find? (k : κ) :
    map.get k = ((map.vals (map.idx k)).find? fun e ↦ e.1 = k).map Prod.snd := by
  rw [get, getAll, List.find?_eq_head?_dropWhile_not]
  simp only [ne_eq, decide_not]

theorem get_make (capacity : ℕ) (fHash : κ → ℕ) (k : κ) :
    (make capacity fHash : HashMap κ α).get k = none := rfl

theorem find?_eraseP_of_ne {k' : κ} (hk : k' ≠ k) (entries : List (κ × α)) :
    (entries.eraseP fun e ↦ e.1 = k).find? (fun e ↦ e.1 = k') = entries.find? fun e ↦ e.1 = k' := by
  induction entries with
  | nil => rfl
  | cons e entries ih =>
    by_cases he : e.1 = k
    · have hne : ¬e.1 = k' := fun h ↦ hk (h.symm.trans he)
      simp [he, Ne.symm hk]
    · rw [eraseP_cons_of_neg (by simpa using he), List.find?_cons, List.find?_cons, ih]

@[simp] theorem idx_insert (k k' : κ) (v : α) (replace : Bool) :
    (map.insert k v replace).idx k' = map.idx k' := by
  simp [idx]

@[simp] theorem idx_remove (k k' : κ) : (map.remove k).idx k' = map.idx k' := rfl

theorem vals_remove (k : κ) (i : ℕ) : (map.remove k).vals i =
      if i = map.idx k then (map.vals i).eraseP (fun e ↦ e.1 = k) else map.vals i := by
  by_cases hi : i = map.idx k
  · subst hi
    simp [remove, setBucket]
  · rw [if_neg hi]
    exact Function.update_of_ne hi _ _

theorem get_insert (k k' : κ) (v : α) (replace : Bool) :
    (map.insert k v replace).get k' = if k' = k then some v else map.get k' := by
  rw [get_eq_find?, idx_insert, vals_insert]
  by_cases hk : k' = k
  · subst hk
    simp
  · rw [if_neg hk, get_eq_find?]
    by_cases hidx : map.idx k' = map.idx k
    · rw [if_pos hidx, List.find?_cons_of_neg (by simpa using Ne.symm hk)]
      cases replace with
      | true => rw [if_pos rfl, find?_eraseP_of_ne hk]
      | false => rfl
    · rw [if_neg hidx]

/-- No bucket has two entries of one key. -/
def Unrepeated : Prop := ∀ i, ((map.vals i).map Prod.fst).Nodup

omit [DecidableEq κ] in
theorem unrepeated_make (capacity : ℕ) (fHash : κ → ℕ) :
    (make capacity fHash : HashMap κ α).Unrepeated := fun _ ↦ nodup_nil

variable {map}

theorem nodup_eraseP {entries : List (κ × α)} (h : (entries.map Prod.fst).Nodup) :
    ((entries.eraseP fun e ↦ e.1 = k).map Prod.fst).Nodup ∧
      k ∉ (entries.eraseP fun e ↦ e.1 = k).map Prod.fst := by
  induction entries with
  | nil => exact ⟨h, not_mem_nil⟩
  | cons e entries ih =>
    rw [map_cons, nodup_cons] at h
    by_cases he : e.1 = k
    · rw [eraseP_cons_of_pos (by simpa using he), ← he]
      exact ⟨h.2, h.1⟩
    · obtain ⟨hnodup, hnot⟩ := ih h.2
      rw [eraseP_cons_of_neg (by simpa using he), map_cons, nodup_cons, mem_cons, not_or]
      have hkept : (entries.eraseP fun e ↦ e.1 = k).map Prod.fst ⊆ entries.map Prod.fst :=
        map_subset _ eraseP_subset
      exact ⟨⟨fun hmem ↦ h.1 (hkept hmem), hnodup⟩, Ne.symm he, hnot⟩

theorem Unrepeated.remove (h : map.Unrepeated) (k : κ) : (map.remove k).Unrepeated := by
  intro i
  rw [vals_remove]
  split_ifs with hi
  · exact (nodup_eraseP (h i)).1
  · exact h i

theorem Unrepeated.insert (h : map.Unrepeated) (k : κ) (v : α) :
    (map.insert k v true).Unrepeated := by
  intro i
  rw [vals_insert, if_pos rfl]
  by_cases hi : i = map.idx k
  · obtain ⟨hnodup, hnot⟩ := nodup_eraseP (k := k) (h i)
    rw [if_pos hi]
    exact nodup_cons.mpr ⟨hnot, hnodup⟩
  · rw [if_neg hi]
    exact h i

theorem Unrepeated.get_remove (h : map.Unrepeated) (k k' : κ) :
    (map.remove k).get k' = if k' = k then none else map.get k' := by
  rw [get_eq_find?, idx_remove, vals_remove]
  by_cases hk : k' = k
  · subst hk
    rw [if_pos rfl, if_pos rfl, map_eq_none_iff, List.find?_eq_none]
    intro e he
    rw [decide_eq_true_eq]
    rintro rfl
    exact (nodup_eraseP (h _)).2 (mem_map_of_mem he)
  · rw [if_neg hk, get_eq_find?]
    split_ifs with hidx
    · rw [find?_eraseP_of_ne hk]
    · rfl

end HashMap

/-! ### What a map holds after entries were inserted -/

section Standing

variable [DecidableEq κ] {pushed : κ → Bool} {entries : List (κ × α)} {e : κ × α}

/-- An entry outlives later ones if it was pushed, or if none of them has its key. -/
def outlives (pushed : κ → Bool) (later : List (κ × α)) (e : κ × α) : Bool :=
  pushed e.1 || e.1 ∉ later.map Prod.fst

/-- The entries that a map still holds, the oldest first -/
def standing (pushed : κ → Bool) : List (κ × α) → List (κ × α)
  | [] => []
  | e :: entries =>
    if outlives pushed entries e then e :: standing pushed entries else standing pushed entries

theorem outlives_append (before after : List (κ × α)) (e : κ × α) :
    outlives pushed (before ++ after) e =
      (outlives pushed before e && outlives pushed after e) := by
  cases hpushed : pushed e.1 <;>
    simp only [outlives, hpushed, map_append, mem_append, not_or, Bool.decide_and,
      Bool.false_or, Bool.true_or, Bool.and_self]

theorem standing_append (before after : List (κ × α)) : standing pushed (before ++ after) =
      (standing pushed before).filter (outlives pushed after) ++ standing pushed after := by
  induction before with
  | nil => rfl
  | cons e before ih =>
    rw [cons_append, standing, ih, standing, outlives_append]
    cases hbefore : outlives pushed before e <;> cases hafter : outlives pushed after e <;>
      simp [hafter]

theorem standing_concat (entries : List (κ × α)) (k : κ) (v : α) :
    standing pushed (entries ++ [(k, v)]) = (if pushed k then standing pushed entries
        else (standing pushed entries).filter fun e ↦ e.1 ≠ k) ++ [(k, v)] := by
  have hlast : standing pushed [(k, v)] = [(k, v)] := by simp [standing, outlives]
  rw [standing_append, hlast]
  congr 1
  split_ifs with hk
  · rw [filter_eq_self]
    intro e _
    by_cases hek : e.1 = k <;> simp [outlives, hek, hk]
  · congr 1
    funext e
    by_cases hek : e.1 = k <;> simp [outlives, hek, hk]

theorem keys_standing {k : κ} :
    k ∈ (standing pushed entries).map Prod.fst ↔ k ∈ entries.map Prod.fst := by
  induction entries with
  | nil => rfl
  | cons e entries ih =>
    rw [standing]
    split_ifs with h
    · rw [map_cons, map_cons, mem_cons, mem_cons, ih]
    · have hmem : e.1 ∈ entries.map Prod.fst := by
        by_contra hnot
        exact h (by simp only [outlives, Bool.or_eq_true, decide_eq_true_eq]; exact .inr hnot)
      rw [ih, map_cons, mem_cons]
      exact ⟨.inr, fun hk ↦ hk.elim (fun heq ↦ heq ▸ hmem) id⟩

/-- Two entries of one key stand only if they were pushed. -/
theorem pairwise_standing :
    (standing pushed entries).Pairwise fun e e' ↦ e.1 = e'.1 → pushed e.1 = true := by
  induction entries with
  | nil => exact List.Pairwise.nil
  | cons e entries ih =>
    rw [standing]
    split_ifs with h
    · refine pairwise_cons.mpr ⟨fun e' he' heq ↦ ?_, ih⟩
      have hmem : e.1 ∈ entries.map Prod.fst := by
        rw [← @keys_standing _ _ _ pushed, heq]
        exact mem_map_of_mem he'
      simpa [outlives, hmem] using h
    · exact ih

theorem eraseP_eq_filter {entries : List (κ × α)}
    (h : entries.Pairwise fun e e' ↦ e.1 = k → e'.1 ≠ k) :
    entries.eraseP (fun e ↦ e.1 = k) = entries.filter fun e ↦ e.1 ≠ k := by
  induction entries with
  | nil => rfl
  | cons e entries ih =>
    obtain ⟨hhead, htail⟩ := pairwise_cons.mp h
    by_cases hek : e.1 = k
    · have hall : entries.filter (fun e ↦ e.1 ≠ k) = entries :=
        filter_eq_self.mpr fun e' he' ↦ by simpa using hhead e' he' hek
      rw [eraseP_cons_of_pos (by simpa using hek), filter_cons_of_neg (by simpa using hek), hall]
    · rw [eraseP_cons_of_neg (by simpa using hek),
        filter_cons_of_pos (by simpa using hek), ih htail]

end Standing

namespace HashMap

variable [DecidableEq κ] {capacity : ℕ} {fHash : κ → ℕ} {pushed : κ → Bool}

/-- Entries inserted one after the other. Those of pushed keys replace nothing. -/
def insertAll (capacity : ℕ) (fHash : κ → ℕ) (pushed : κ → Bool) (entries : List (κ × α)) :
    HashMap κ α :=
  entries.foldl (fun map e ↦ map.insert e.1 e.2 (!pushed e.1)) (make capacity fHash)

theorem insertAll_concat (entries : List (κ × α)) (k : κ) (v : α) :
    insertAll capacity fHash pushed (entries ++ [(k, v)]) =
      (insertAll capacity fHash pushed entries).insert k v (!pushed k) := by
  rw [insertAll, foldl_append]
  rfl

theorem hash_insertAll (entries : List (κ × α)) (k : κ) :
    (insertAll capacity fHash pushed entries).idx k = fHash k % capacity := by
  have hfixed : ∀ map : HashMap κ α, map.capacity = capacity → map.fHash = fHash →
      (entries.foldl (fun map e ↦ map.insert e.1 e.2 (!pushed e.1)) map).idx k =
        fHash k % capacity := by
    induction entries with
    | nil =>
      rintro map rfl rfl
      rfl
    | cons e entries ih =>
      intro map hcapacity hhash
      exact ih _ (by simpa using hcapacity) (by simpa using hhash)
  exact hfixed _ rfl rfl

/-- A bucket holds what stands of its keys, the newest entry in front. -/
theorem vals_insertAll (entries : List (κ × α)) (i : ℕ) :
    (insertAll capacity fHash pushed entries).vals i =
      ((standing pushed entries).filter fun e ↦ fHash e.1 % capacity = i).reverse := by
  induction entries using List.reverseRecOn generalizing i with
  | nil => rfl
  | append_singleton entries e ih =>
    obtain ⟨k, v⟩ := e
    have hk := @hash_insertAll _ α _ capacity fHash pushed entries k
    rw [insertAll_concat, vals_insert, standing_concat, hk, filter_append, reverse_append, ih]
    by_cases hi : fHash k % capacity = i
    · rw [if_pos hi.symm]
      cases hpushed : pushed k with
      | true => simp [hi]
      | false =>
        have hpair : (((standing pushed entries).filter fun e ↦
            fHash e.1 % capacity = i).reverse).Pairwise fun e e' ↦ e.1 = k → e'.1 ≠ k := by
          rw [pairwise_reverse]
          refine (pairwise_standing.filter _).imp fun {e e'} h he' he ↦ ?_
          rw [he, he', hpushed] at h
          exact absurd (h rfl) Bool.false_ne_true
        simp [hi, eraseP_eq_filter hpair, List.filter_reverse, List.filter_filter, Bool.and_comm]
    · have hsame : ((standing pushed entries).filter fun e ↦ e.1 ≠ k).filter
          (fun e ↦ fHash e.1 % capacity = i) =
            (standing pushed entries).filter fun e ↦ fHash e.1 % capacity = i := by
        rw [List.filter_filter]
        refine filter_congr fun e _ ↦ ?_
        by_cases hek : e.1 = k <;> simp [hek, hi]
      rw [if_neg (Ne.symm hi)]
      cases pushed k with
      | true => simp [hi]
      | false =>
        rw [if_neg Bool.false_ne_true, hsame]
        simp [hi]

theorem getAll_insertAll (entries : List (κ × α)) (k : κ) :
    (insertAll capacity fHash pushed entries).getAll k = (((standing pushed entries).filter fun e ↦
        fHash e.1 % capacity = fHash k % capacity).reverse).dropWhile fun e ↦ e.1 ≠ k := by
  rw [getAll, hash_insertAll, vals_insertAll]

theorem dropWhile_bucket {entries : List (κ × α)} {k : κ} (h : k ∉ entries.map Prod.fst)
    (p : κ × α → Bool) :
    (((standing pushed entries).filter p).reverse).dropWhile (fun e ↦ e.1 ≠ k) = [] := by
  rw [dropWhile_eq_nil_iff]
  intro e he
  rw [mem_reverse, mem_filter] at he
  rw [decide_eq_true_eq]
  rintro rfl
  exact h (keys_standing.mp (mem_map_of_mem he.1))

/-- Under a key that was inserted, the map has its newest entry and whatever stands of the same
bucket from before. -/
theorem getAll_of_last {before after : List (κ × α)} {v : α} (hlast : k ∉ after.map Prod.fst) :
    (insertAll capacity fHash pushed (before ++ (k, v) :: after)).getAll k =
      (k, v) :: (((standing pushed before).filter (outlives pushed ((k, v) :: after))).filter
        fun e ↦ fHash e.1 % capacity = fHash k % capacity).reverse := by
  have hout : outlives pushed after (k, v) = true := by
    simp only [outlives, Bool.or_eq_true, decide_eq_true_eq]
    exact .inr hlast
  rw [getAll_insertAll, standing_append, standing, if_pos hout, filter_append,
    filter_cons_of_pos (by simp), reverse_append, reverse_cons, append_assoc,
    dropWhile_append, dropWhile_bucket hlast, isEmpty_nil, if_pos rfl,
    singleton_append, dropWhile_cons_of_neg (by simp)]

theorem getAll_of_not_mem {entries : List (κ × α)} (h : k ∉ entries.map Prod.fst) :
    (insertAll capacity fHash pushed entries).getAll k = [] := by
  rw [getAll_insertAll, dropWhile_bucket h]

end HashMap

/-! ### Iteration -/

namespace HashMap

variable [DecidableEq κ] {map : HashMap κ α}

/-- What `_z_hashmap_iterator_next` visits: one bucket after the other, each from its head -/
def entries (map : HashMap κ α) : List (κ × α) := (List.range map.capacity).flatMap map.vals

/-- Every entry is in the bucket of its key. -/
def Placed (map : HashMap κ α) : Prop := ∀ i, ∀ e ∈ map.vals i, map.idx e.1 = i

omit [DecidableEq κ] in
theorem placed_make (capacity : ℕ) (fHash : κ → ℕ) :
    (make capacity fHash : HashMap κ α).Placed := fun _ _ he ↦ absurd he not_mem_nil

theorem Placed.remove (h : map.Placed) (k : κ) : (map.remove k).Placed := by
  intro i e he
  rw [vals_remove] at he
  split_ifs at he with hi
  · exact h i e (mem_of_mem_eraseP he)
  · exact h i e he

theorem Placed.insert (h : map.Placed) (k : κ) (v : α) : (map.insert k v true).Placed := by
  intro i e he
  rw [idx_insert]
  rw [vals_insert, if_pos rfl] at he
  split_ifs at he with hi
  · obtain rfl | he := mem_cons.mp he
    · exact hi.symm
    · exact h i e (mem_of_mem_eraseP he)
  · exact h i e he

omit [DecidableEq κ] in
/-- The keys of a map are pairwise different. -/
theorem nodup_keys (h : map.Unrepeated) (hplaced : map.Placed) :
    (map.entries.map Prod.fst).Nodup := by
  rw [entries, map_flatMap, nodup_flatMap]
  refine ⟨fun i _ ↦ h i, nodup_range.imp fun {i j} hij k hi hj ↦ hij ?_⟩
  obtain ⟨e, he, rfl⟩ := List.mem_map.mp hi
  obtain ⟨e', he', heq⟩ := List.mem_map.mp hj
  rw [← hplaced i e he, ← hplaced j e' he', heq]

omit [DecidableEq κ] in
theorem perm_cons_eraseP {p : κ × α → Bool} {l : List (κ × α)} {e : κ × α}
    (h : l.find? p = some e) : l.Perm (e :: l.eraseP p) := by
  induction l with
  | nil => cases h
  | cons a l ih =>
    by_cases ha : p a = true
    · rw [List.find?_cons_of_pos ha] at h
      rw [eraseP_cons_of_pos ha, some.inj h]
    · rw [List.find?_cons_of_neg ha] at h
      rw [eraseP_cons_of_neg ha]
      exact ((ih h).cons a).trans (List.Perm.swap e a _)

omit [DecidableEq κ] in
theorem eraseP_of_find?_eq_none {p : κ × α → Bool} {l : List (κ × α)} (h : l.find? p = none) :
    l.eraseP p = l :=
  eraseP_of_forall_not fun a ha ↦ List.find?_eq_none.mp h a ha

/-- Removing an absent key changes nothing. -/
theorem remove_of_get_eq_none (h : map.get k = none) : map.remove k = map := by
  rw [get_eq_find?, map_eq_none_iff] at h
  rw [remove, setBucket, eraseP_of_find?_eq_none h, Function.update_eq_self]

omit [DecidableEq κ] in
theorem flatMap_perm_cons {l : List ℕ} (hl : l.Nodup) {f f' : ℕ → List (κ × α)} {i : ℕ}
    (hi : i ∈ l) {e : κ × α} (hbucket : (f i).Perm (e :: f' i)) (hsame : ∀ j ≠ i, f j = f' j) :
    (l.flatMap f).Perm (e :: l.flatMap f') := by
  induction l with
  | nil => exact absurd hi not_mem_nil
  | cons j l ih =>
    obtain ⟨hj, hl⟩ := nodup_cons.mp hl
    rw [flatMap_cons, flatMap_cons]
    by_cases hji : j = i
    · subst hji
      have hrest : l.flatMap f = l.flatMap f' :=
        flatMap_congr fun a ha ↦ hsame a (ne_of_mem_of_not_mem ha hj)
      rw [hrest]
      exact hbucket.append_right _
    · rw [hsame j hji]
      exact ((ih hl ((mem_cons.mp hi).resolve_left (Ne.symm hji))).append_left _).trans
        perm_middle

/-- Removing a present key takes its entry out. -/
theorem entries_perm_remove {v : α} (hcapacity : 0 < map.capacity) (h : map.get k = some v) :
    map.entries.Perm ((k, v) :: (map.remove k).entries) := by
  rw [get_eq_find?, map_eq_some_iff] at h
  obtain ⟨⟨k', v'⟩, hfind, rfl⟩ := h
  have hkey := List.find?_some hfind
  obtain rfl : k' = k := of_decide_eq_true hkey
  refine flatMap_perm_cons (i := map.idx k') nodup_range
    (mem_range.mpr (Nat.mod_lt _ hcapacity)) ?_ fun j hj ↦ ?_
  · rw [vals_remove, if_pos rfl]
    exact perm_cons_eraseP hfind
  · rw [vals_remove, if_neg hj]

/-- Inserting an absent key adds its entry. -/
theorem entries_insert_perm {v : α} (hcapacity : 0 < map.capacity) (h : map.get k = none) :
    (map.insert k v true).entries.Perm ((k, v) :: map.entries) := by
  rw [entries, capacity_insert]
  refine flatMap_perm_cons (i := map.idx k) nodup_range
    (mem_range.mpr (Nat.mod_lt _ hcapacity)) ?_ fun j hj ↦ ?_
  · rw [get_eq_find?, map_eq_none_iff] at h
    rw [vals_insert, if_pos rfl, if_pos rfl, eraseP_of_find?_eq_none h]
  · rw [vals_insert, if_neg hj]

end HashMap

end ZenohPico.Collections
