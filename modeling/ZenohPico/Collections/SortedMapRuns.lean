import ZenohPico.Collections.SortedMapLists

/-!
Sorted maps over any sequence of operations.

Several maps are beside each other in one memory, so that one can be copied to another. `Represents`
says which `SortedMap` each of them is; the values that were inserted last are told from the answers
of the operations alone.
-/

open List

namespace ZenohPico.Collections

variable {κ α : Type}

/-- The memory, and the list of each map -/
structure MapStore (κ α : Type) where
  heap : NodeHeap (κ × α)
  vals : ℕ → Option ℕ

inductive MapOp (κ α : Type)
  | insert (m : ℕ) (k : κ) (v : α) (replace : Bool)
  | remove (m : ℕ) (k : κ)
  | get (m : ℕ) (k : κ)
  | popFirst (m : ℕ)
  | copy (dst src : ℕ)
  | iterate (m : ℕ)

inductive MapAnswer (κ α : Type)
  | inserted (v : Option α)
  | removed
  | got (v : Option α)
  | popped (e : Option (κ × α))
  | copied (ok : Bool)
  | iterated (es : List (κ × α))

namespace MapStore

/-- Maps without entries -/
def fresh (heap : NodeHeap (κ × α)) : MapStore κ α := ⟨heap, fun _ ↦ none⟩

/-- One map and the memory changed -/
def put (s : MapStore κ α) (m : ℕ) (vals : Option ℕ) (heap : NodeHeap (κ × α)) : MapStore κ α :=
  ⟨heap, Function.update s.vals m vals⟩

variable [LinearOrder κ]

def step (a : Allocator) (cloneVal : α → α) (s : MapStore κ α) :
    MapOp κ α → Option (MapAnswer κ α × MapStore κ α)
  | .insert m k v replace => (s.heap.sortedmapInsert a (s.vals m) k v replace).map
      fun (ans, vals, heap) ↦ (.inserted ans, s.put m vals heap)
  | .remove m k => (s.heap.sortedmapRemove (s.vals m) k).map
      fun (vals, heap) ↦ (.removed, s.put m vals heap)
  | .get m k => (s.heap.sortedmapGet (s.vals m) k).map fun ans ↦ (.got ans, s)
  | .popFirst m => (s.heap.sortedmapPopFirst (s.vals m)).map
      fun (ans, vals, heap) ↦ (.popped ans, s.put m vals heap)
  | .copy dst src => (s.heap.sortedmapCopy a cloneVal (s.vals dst) (s.vals src)).map
      fun (ok, vals, heap) ↦ (.copied ok, s.put dst vals heap)
  | .iterate m => (s.heap.sortedmapIterate (s.vals m)).map fun es ↦ (.iterated es, s)

def runMaps (a : Allocator) (cloneVal : α → α) :
    List (MapOp κ α) → MapStore κ α → Option (List (MapAnswer κ α) × MapStore κ α)
  | [], s => some ([], s)
  | op :: ops, s => do
    let (answer, s) ← s.step a cloneVal op
    let (answers, s) ← runMaps a cloneVal ops s
    return (answer :: answers, s)

end MapStore

/-! ### What was inserted last -/

namespace MapOp

variable [LinearOrder κ]

/-- The values that were inserted last, after one more operation that gave this answer -/
def remember (cloneVal : α → α) (op : MapOp κ α) (answer : MapAnswer κ α)
    (last : ℕ → κ → Option α) : ℕ → κ → Option α :=
  match op, answer with
  | .insert m k v _, .inserted (some _) =>
    Function.update last m (Function.update (last m) k (some v))
  | .remove m k, _ => Function.update last m (Function.update (last m) k none)
  | .popFirst m, .popped (some e) =>
    Function.update last m (Function.update (last m) e.1 none)
  | .copy dst src, .copied true => Function.update last dst fun k ↦ (last src k).map cloneVal
  | _, _ => last

/-- The values that were inserted last in a run, by its answers -/
def remembered (cloneVal : α → α) :
    List (MapOp κ α) → List (MapAnswer κ α) → (ℕ → κ → Option α) → ℕ → κ → Option α
  | op :: ops, answer :: answers, last =>
    remembered cloneVal ops answers (op.remember cloneVal answer last)
  | _, _, last => last

/-- The memory that an operation needs -/
def Fits (a : Allocator) (s : MapStore κ α) : MapOp κ α → Prop
  | .insert m k _ replace => s.heap.InsertFits a (s.vals m) k replace
  | .copy dst src => s.heap.CopyFits a (s.vals dst) (s.vals src)
  | .remove _ _ | .get _ _ | .popFirst _ | .iterate _ => True

/-- All operations of a run get the memory that they need. -/
def AllFit (a : Allocator) (cloneVal : α → α) : List (MapOp κ α) → MapStore κ α → Prop
  | [], _ => True
  | op :: ops, s => op.Fits a s ∧
      ∀ answer s', s.step a cloneVal op = some (answer, s') → AllFit a cloneVal ops s'

end MapOp

namespace MapStore

variable [LinearOrder κ]

/-- Each map is this one, in nodes of its own. -/
structure Represents (s : MapStore κ α) (nodes : ℕ → List ℕ) (maps : ℕ → SortedMap κ α) : Prop where
  lists : ∀ m, s.heap.IsList (s.vals m) (nodes m) (maps m).entries
  apart : ∀ m m', m ≠ m' → ∀ i ∈ nodes m, i ∉ nodes m'

variable {s : MapStore κ α} {nodes : ℕ → List ℕ} {maps : ℕ → SortedMap κ α}
  {heap : NodeHeap (κ × α)} {vals : Option ℕ} {m : ℕ} {l : List ℕ} {map : SortedMap κ α}

theorem represents_fresh (heap : NodeHeap (κ × α)) :
    (fresh heap).Represents (fun _ ↦ []) fun _ ↦ .empty where
  lists _ := NodeHeap.isList_nil
  apart _ _ _ _ _ := not_mem_nil

namespace Represents

/-- An operation on one map leaves the others as they are. -/
theorem put (hr : s.Represents nodes maps) (hlist : heap.IsList vals l map.entries)
    (hbecomes : s.heap.Becomes heap (nodes m) l) :
    (s.put m vals heap).Represents (Function.update nodes m l) (Function.update maps m map) where
  lists n := by
    by_cases hn : n = m
    · subst hn
      rw [MapStore.put]
      dsimp only
      rw [Function.update_self, Function.update_self, Function.update_self]
      exact hlist
    · rw [MapStore.put]
      dsimp only
      rw [Function.update_of_ne hn, Function.update_of_ne hn, Function.update_of_ne hn]
      exact hbecomes.isList (hr.lists n) (hr.apart n m hn)
  apart n n' hne i hi := by
    have hother : ∀ n, n ≠ m → ∀ i ∈ nodes n, i ∉ l := fun n hn ↦
      hbecomes.disjoint (hr.lists n).live (hr.apart n m hn)
    by_cases hn : n = m
    · subst hn
      rw [Function.update_self] at hi
      rw [Function.update_of_ne hne.symm]
      exact fun hi' ↦ hother n' hne.symm i hi' hi
    · rw [Function.update_of_ne hn] at hi
      by_cases hn' : n' = m
      · subst hn'
        rw [Function.update_self]
        exact hother n hn i hi
      · rw [Function.update_of_ne hn']
        exact hr.apart n n' hne i hi

/-- The maps give the values that were inserted last. -/
def Remember (maps : ℕ → SortedMap κ α) (last : ℕ → κ → Option α) : Prop :=
  ∀ m k, (maps m).get? k = last m k

variable {last : ℕ → κ → Option α}

theorem Remember.update (h : Remember maps last) {f : κ → Option α}
    (hmap : ∀ k, map.get? k = f k) :
    Remember (Function.update maps m map) (Function.update last m f) := by
  intro n k
  by_cases hn : n = m
  · subst hn
    rw [Function.update_self, Function.update_self, hmap]
  · rw [Function.update_of_ne hn, Function.update_of_ne hn, h]

/-- A map that is the same as before -/
theorem Remember.update_same (h : Remember maps last) (hmap : map = maps m) :
    Remember (Function.update maps m map) last := by
  rwa [hmap, Function.update_eq_self]

/-- What one operation does to the maps, and to the values that were inserted last if it gets its
memory -/
theorem step (hr : s.Represents nodes maps) (a : Allocator) (cloneVal : α → α) (op : MapOp κ α) :
    ∃ answer s' nodes' maps', s.step a cloneVal op = some (answer, s') ∧
      s'.Represents nodes' maps' ∧ (op.Fits a s → ∀ last, Remember maps last →
        Remember maps' (op.remember cloneVal answer last)) := by
  cases op with
  | insert m k v replace =>
    obtain ⟨ans, vals, heap, l, map, hinsert, hlist, hbecomes, hfits, -⟩ :=
      NodeHeap.sortedmapInsert_spec (hr.lists m) a k v replace
    refine ⟨.inserted ans, s.put m vals heap, _, _, ?_, hr.put hlist hbecomes,
      fun h last hlast ↦ ?_⟩
    · rw [MapStore.step, hinsert]
      rfl
    · rcases hfits h with ⟨rfl, rfl⟩ | ⟨rfl, rfl⟩
      · exact hlast.update_same rfl
      · refine hlast.update fun n ↦ ?_
        rw [SortedMap.get?_insert, Function.update_apply, hlast]
  | remove m k =>
    obtain ⟨vals, heap, l, hremove, hlist, hbecomes⟩ :=
      NodeHeap.sortedmapRemove_spec (hr.lists m) k
    refine ⟨.removed, s.put m vals heap, _, _, ?_, hr.put hlist hbecomes, fun _ last hlast ↦ ?_⟩
    · rw [MapStore.step, hremove]
      rfl
    · refine hlast.update fun n ↦ ?_
      rw [SortedMap.get?_erase, Function.update_apply, hlast]
  | get m k =>
    refine ⟨.got ((maps m).get? k), s, nodes, maps, ?_, hr, fun _ last hlast ↦ hlast⟩
    rw [MapStore.step, NodeHeap.sortedmapGet_spec (hr.lists m)]
    rfl
  | popFirst m =>
    obtain ⟨vals, heap, l, hpop, hlist, hbecomes⟩ :=
      NodeHeap.sortedmapPopFirst_spec (hr.lists m)
    obtain ⟨map, hmap⟩ : ∃ map : SortedMap κ α, map.entries = (maps m).entries.tail :=
      ⟨(maps m).restrict _ (tail_sublist _), rfl⟩
    rw [← hmap] at hlist
    refine ⟨.popped (maps m).entries.head?, s.put m vals heap, _, _, ?_, hr.put hlist hbecomes,
      fun _ last hlast ↦ ?_⟩
    · rw [MapStore.step, hpop]
      rfl
    · cases hentries : (maps m).entries with
      | nil =>
        rw [hentries, tail_nil, ← hentries] at hmap
        exact hlast.update_same (SortedMap.eq_of_entries hmap)
      | cons e es =>
        rw [hentries, tail_cons] at hmap
        refine hlast.update fun n ↦ ?_
        rw [SortedMap.get?_of_entries (hentries.trans (congrArg (e :: ·) hmap.symm)),
          Function.update_apply, hlast]
  | copy dst src =>
    obtain ⟨ok, vals, heap, l, map, hcopy, hlist, hbecomes, hfits⟩ :=
      NodeHeap.sortedmapCopy_spec (hr.lists src) (hr.lists dst) a cloneVal
    refine ⟨.copied ok, s.put dst vals heap, _, _, ?_, hr.put hlist hbecomes, fun h last hlast ↦ ?_⟩
    · rw [MapStore.step, hcopy]
      rfl
    · rcases hfits h with ⟨rfl, rfl⟩ | ⟨rfl, rfl⟩
      · exact hlast.update_same rfl
      · refine hlast.update fun n ↦ ?_
        rw [SortedMap.get?_mapVal, hlast]
  | iterate m =>
    refine ⟨.iterated (maps m).entries, s, nodes, maps, ?_, hr, fun _ last hlast ↦ hlast⟩
    rw [MapStore.step, NodeHeap.sortedmapIterate_spec (hr.lists m)]
    rfl

/-- What a run does to them -/
theorem run (hr : s.Represents nodes maps) (a : Allocator) (cloneVal : α → α)
    (ops : List (MapOp κ α)) :
    ∃ answers s' nodes' maps', runMaps a cloneVal ops s = some (answers, s') ∧
      s'.Represents nodes' maps' ∧ (MapOp.AllFit a cloneVal ops s → ∀ last, Remember maps last →
        Remember maps' (MapOp.remembered cloneVal ops answers last)) := by
  induction ops generalizing s nodes maps with
  | nil => exact ⟨[], s, nodes, maps, rfl, hr, fun _ _ hlast ↦ hlast⟩
  | cons op ops ih =>
    obtain ⟨answer, s₁, nodes₁, maps₁, hstep, hr₁, hkeeps⟩ := hr.step a cloneVal op
    obtain ⟨answers, s', nodes', maps', hrun, hr', hrest⟩ := ih hr₁
    refine ⟨answer :: answers, s', nodes', maps', ?_, hr', fun hfit last hlast ↦ ?_⟩
    · rw [runMaps, hstep, Option.bind_eq_bind, Option.bind_some]
      dsimp only
      rw [hrun]
      rfl
    · exact hrest (hfit.2 answer s₁ hstep) _ (hkeeps hfit.1 last hlast)

end Represents

/-- Every map has its entries in the order of their keys, no key twice. An iteration goes through
them, a search finds each of them by its key, and the first one, which has the least key, is the one
that is popped. -/
def InOrder (s : MapStore κ α) : Prop :=
  ∀ m, ∃ es, s.heap.sortedmapIterate (s.vals m) = some es ∧ (es.map Prod.fst).Pairwise (· < ·) ∧
    (∀ k, ∃ ans, s.heap.sortedmapGet (s.vals m) k = some ans ∧ ∀ v, ans = some v ↔ (k, v) ∈ es) ∧
    (∃ vals heap, s.heap.sortedmapPopFirst (s.vals m) = some (es.head?, vals, heap)) ∧
    ∀ e, es.head? = some e → ∀ e' ∈ es, e.1 ≤ e'.1

theorem Represents.inOrder (hr : s.Represents nodes maps) : s.InOrder := fun m ↦ by
  obtain ⟨vals, heap, l, hpop, -⟩ := NodeHeap.sortedmapPopFirst_spec (hr.lists m)
  refine ⟨(maps m).entries, NodeHeap.sortedmapIterate_spec (hr.lists m), (maps m).sorted,
    fun k ↦ ⟨_, NodeHeap.sortedmapGet_spec (hr.lists m) k, fun v ↦ SortedMap.get?_eq_some_iff⟩,
    ⟨vals, heap, hpop⟩, fun e he e' he' ↦ SortedMap.le_of_head? he he'⟩

/-- With memory for its entry and its node, an insertion that may replace the value of its key or
finds none succeeds, and a search gives its value. -/
def Inserts (a : Allocator) (s : MapStore κ α) : Prop :=
  ∀ m k v replace, a.memory s.heap.mallocs = true → a.memory (s.heap.mallocs + 1) = true →
    replace = true ∨ s.heap.sortedmapGet (s.vals m) k = some none →
    ∃ vals heap, s.heap.sortedmapInsert a (s.vals m) k v replace = some (some v, vals, heap) ∧
      heap.sortedmapGet vals k = some (some v)

theorem Represents.inserts (hr : s.Represents nodes maps) (a : Allocator) : s.Inserts a := by
  intro m k v replace hentry hnode hnew
  obtain ⟨ans, vals, heap, l, map, hinsert, hlist, -, -, hdone⟩ :=
    NodeHeap.sortedmapInsert_spec (hr.lists m) a k v replace
  rw [NodeHeap.sortedmapGet_spec (hr.lists m), Option.some_inj] at hnew
  obtain ⟨rfl, rfl⟩ := hdone hentry hnode hnew
  refine ⟨vals, heap, hinsert, ?_⟩
  rw [NodeHeap.sortedmapGet_spec hlist, SortedMap.get?_insert, if_pos rfl]

/-- Over any sequence of operations, whatever memory they get, every map keeps its entries in the
order of their keys, and an insertion that gets its memory succeeds. Where the operations get the
memory that they need, a search gives the value that was inserted last, as it was reported, and
nothing for a key that has none. -/
theorem sortedmaps_sound (a : Allocator) (cloneVal : α → α) (heap : NodeHeap (κ × α))
    (ops : List (MapOp κ α)) :
    ∃ answers s, runMaps a cloneVal ops (fresh heap) = some (answers, s) ∧ s.InOrder ∧
      s.Inserts a ∧ (MapOp.AllFit a cloneVal ops (fresh heap) → ∀ m k,
        s.heap.sortedmapGet (s.vals m) k =
          some (MapOp.remembered cloneVal ops answers (fun _ _ ↦ none) m k)) := by
  obtain ⟨answers, s, nodes, maps, hrun, hr, hkeeps⟩ :=
    (represents_fresh heap).run a cloneVal ops
  refine ⟨answers, s, hrun, hr.inOrder, hr.inserts a, fun hfit m k ↦ ?_⟩
  rw [NodeHeap.sortedmapGet_spec (hr.lists m)]
  exact congrArg some (hkeeps hfit _ (fun _ _ ↦ rfl) m k)

/-- Memory for all but the fourth allocation -/
def lacksFourth : Allocator := .behind fun n ↦ n ≠ 3

/-- The second insertion gets the memory for its entry, and none for its node. It answers with the
value as if it were in the map, where a search does not find it. -/
theorem inserted_not_found : ∃ s, runMaps lacksFourth id [.insert 0 2 20 true, .insert 0 1 10 true]
        (fresh ⟨∅, fun _ ↦ (0, 0), fun _ ↦ none, 0⟩) =
        some ([.inserted (some 20), .inserted (some 10)], s) ∧
      s.heap.sortedmapGet (s.vals 0) 1 = some none :=
  ⟨_, rfl, rfl⟩

end MapStore

end ZenohPico.Collections
