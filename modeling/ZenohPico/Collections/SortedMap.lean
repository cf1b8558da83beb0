import Mathlib.Data.List.Pairwise
import Mathlib.Data.List.Perm.Basic
import Mathlib.Order.Lattice

/-!
The sorted map of `src/collections/sortedmap.c`: a list of entries in the order of their keys.

The walk of an insertion stops at the first entry whose key is not smaller, which it replaces if the
key is the same. The order of the entries is that of the comparison of the keys, in which an
iteration goes through them.
-/

open List

namespace ZenohPico.Collections

/-- The entries of a map, in the order of their keys -/
structure SortedMap (κ α : Type*) [LinearOrder κ] where
  entries : List (κ × α)
  sorted : (entries.map Prod.fst).Pairwise (· < ·)

namespace SortedMap

variable {κ α : Type*} [LinearOrder κ]

/-- A map without entries -/
def empty : SortedMap κ α := ⟨[], .nil⟩

/-- The keys, in their order -/
def keys (m : SortedMap κ α) : List κ := m.entries.map Prod.fst

/-- `_z_sortedmap_len` -/
def length (m : SortedMap κ α) : ℕ := m.entries.length

/-- `_z_sortedmap_is_empty` -/
def isEmpty (m : SortedMap κ α) : Bool := m.length = 0

/-- The walk of `_z_sortedmap_insert`, with `replace` set -/
def insertEntry (k : κ) (v : α) : List (κ × α) → List (κ × α)
  | [] => [(k, v)]
  | e :: es =>
    if k = e.1 then (k, v) :: es
    else if k < e.1 then (k, v) :: e :: es
    else e :: insertEntry k v es

theorem mem_insertEntry {k n : κ} {v : α} {es : List (κ × α)} :
    n ∈ (insertEntry k v es).map Prod.fst ↔ n = k ∨ n ∈ es.map Prod.fst := by
  induction es with
  | nil => simp [insertEntry]
  | cons e es ih =>
    unfold insertEntry
    split_ifs with heq hlt
    · simp [heq]
    · simp
    · rw [map_cons, mem_cons, ih, map_cons, mem_cons]
      tauto

theorem pairwise_insertEntry {k : κ} {v : α} {es : List (κ × α)}
    (h : (es.map Prod.fst).Pairwise (· < ·)) :
    ((insertEntry k v es).map Prod.fst).Pairwise (· < ·) := by
  induction es with
  | nil => simp [insertEntry]
  | cons e es ih =>
    rw [map_cons, pairwise_cons] at h
    unfold insertEntry
    split_ifs with heq hlt
    · rw [map_cons, pairwise_cons, heq]
      exact h
    · rw [map_cons, map_cons, pairwise_cons]
      refine ⟨fun n hn ↦ ?_, pairwise_cons.mpr h⟩
      rcases mem_cons.mp hn with rfl | hn
      · exact hlt
      · exact hlt.trans (h.1 n hn)
    · rw [map_cons, pairwise_cons]
      refine ⟨fun n hn ↦ ?_, ih h.2⟩
      rcases mem_insertEntry.mp hn with rfl | hn
      · exact lt_of_le_of_ne (not_lt.mp hlt) (Ne.symm heq)
      · exact h.1 n hn

/-- `_z_sortedmap_insert` with `replace` set -/
def insert (m : SortedMap κ α) (k : κ) (v : α) : SortedMap κ α :=
  ⟨insertEntry k v m.entries, pairwise_insertEntry m.sorted⟩

/-- `_z_sortedmap_get` -/
def get? (m : SortedMap κ α) (k : κ) : Option α := (m.entries.find? (·.1 = k)).map Prod.snd

/-- `_z_sortedmap_remove` -/
def erase (m : SortedMap κ α) (k : κ) : SortedMap κ α where
  entries := m.entries.eraseP (·.1 = k)
  sorted := m.sorted.sublist (eraseP_sublist.map Prod.fst)

/-- `_z_sortedmap_pop_first`, with the entry that leaves the map -/
def popFirst? (m : SortedMap κ α) : Option ((κ × α) × SortedMap κ α) :=
  match hentries : m.entries with
  | [] => none
  | e :: es => some (e, ⟨es, by
      have h := m.sorted
      rw [hentries, map_cons, pairwise_cons] at h
      exact h.2⟩)

/-! ### The keys after an operation -/

variable {m : SortedMap κ α} {k n : κ} {v : α}

theorem mem_keys_insert : n ∈ (m.insert k v).keys ↔ n = k ∨ n ∈ m.keys := mem_insertEntry

theorem get?_eq_none_iff : m.get? k = none ↔ k ∉ m.keys := by
  unfold get? keys
  simp only [Option.map_eq_none_iff, List.find?_eq_none, decide_eq_true_eq, mem_map, not_exists,
    not_and]

theorem mem_keys_of_get? (h : m.get? k = some v) : k ∈ m.keys := by
  by_contra hmem
  rw [get?_eq_none_iff.mpr hmem] at h
  exact nomatch h

/-- Only the entry of the key goes. -/
theorem mem_keys_erase : n ∈ (m.erase k).keys ↔ n ≠ k ∧ n ∈ m.keys := by
  obtain ⟨es, hes⟩ := m
  unfold keys erase
  simp only
  induction es with
  | nil => simp
  | cons e es ih =>
    rw [map_cons, pairwise_cons] at hes
    rw [eraseP_cons]
    by_cases heq : e.1 = k
    · simp only [heq, decide_true, cond_true, map_cons, mem_cons]
      constructor
      · intro hn
        have hlt := hes.1 n hn
        rw [heq] at hlt
        exact ⟨ne_of_gt hlt, .inr hn⟩
      · rintro ⟨hne, rfl | hn⟩
        · exact absurd rfl hne
        · exact hn
    · simp only [heq, decide_false, cond_false, map_cons, mem_cons, ih hes.2]
      constructor
      · rintro (rfl | ⟨hne, hn⟩)
        · exact ⟨heq, .inl rfl⟩
        · exact ⟨hne, .inr hn⟩
      · rintro ⟨hne, rfl | hn⟩
        · exact .inl rfl
        · exact .inr ⟨hne, hn⟩

theorem popFirst?_eq_some {e : κ × α} {rest : SortedMap κ α} (h : m.popFirst? = some (e, rest)) :
    m.entries = e :: rest.entries := by
  unfold popFirst? at h
  split at h
  · exact nomatch h
  · next e' es hentries =>
    cases h
    exact hentries

theorem keys_of_popFirst? {e : κ × α} {rest : SortedMap κ α} (h : m.popFirst? = some (e, rest)) :
    m.keys = e.1 :: rest.keys := by
  unfold keys
  rw [popFirst?_eq_some h, map_cons]

end SortedMap

end ZenohPico.Collections
