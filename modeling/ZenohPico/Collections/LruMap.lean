import ZenohPico.Collections.LruCache
import ZenohPico.Foundations.Recency

/-!
What the cache that forgets is for (`src/collections/lru_cache.c`).

A cache stands for a bounded map of what was used when: a lookup finds the element that was
inserted with an equal key and makes it the one used last, and an insertion into a full cache drops
the one that was used least recently. It does so as long as no new element is inserted between the
two greatest ones of a full cache, the greatest of which stays (`runsAs_iff`): behind that one the
new element is not found again (`not_runsAs_between`).
-/

open List Option

namespace ZenohPico.Collections

open Foundations

variable {α : Type} [DecidableEq α] (cmp : α → α → Ordering)

/-- What the callers of a cache do -/
inductive LruOp (α : Type) where
  | insert (value : α)
  | get (value : α)
  | clear
  | delete
deriving DecidableEq, Repr

/-- The request to the map -/
def LruOp.request : LruOp α → RecencyMap.Request α
  | insert value => .insert value
  | get value => .get value
  | clear => .clear
  | delete => .clear

/-- A condition on what is inserted -/
def LruOp.Inserts (P : α → Prop) : LruOp α → Prop
  | insert value => P value
  | _ => True

instance (P : α → Prop) [DecidablePred P] (op : LruOp α) : Decidable (op.Inserts P) :=
  match op with
  | .insert value => inferInstanceAs (Decidable (P value))
  | .get _ => isTrue trivial
  | .clear => isTrue trivial
  | .delete => isTrue trivial

namespace LruCache

instance (cache : LruCache α) : DecidablePred (cache.Misses cmp) := fun value ↦
  inferInstanceAs (Decidable (∀ node ∈ cache.nodes, cmp node.value value ≠ .eq))

instance (cache : LruCache α) : DecidablePred (cache.Fits cmp) := fun value ↦
  inferInstanceAs (Decidable (cache.nodes.length = cache.capacity → ∀ greatest ∈ cache.nodes,
    cmp greatest.value value = .gt → cache.nodes.getLast? ≠ some greatest →
      ∃ node ∈ cache.nodes, node ≠ greatest ∧ cmp node.value value ≠ .lt))

/-- `_z_lru_cache_delete`: the next insertion allocates the array again. -/
def delete (cache : LruCache α) : LruCache α := cache.clear

/-- One call: the element that is returned, and the cache after that -/
def call (cache : LruCache α) : LruOp α → Option (Option α × LruCache α)
  | .insert value => (cache.insert cmp value).map fun cache' ↦ (none, cache')
  | .get value => cache.get cmp value
  | .clear => some (none, cache.clear)
  | .delete => some (none, cache.delete)

/-- All insertions of a run meet a condition. -/
def Along (P : LruCache α → α → Prop) : LruCache α → List (LruOp α) → Prop
  | _, [] => True
  | cache, op :: ops => op.Inserts (P cache) ∧
    ∀ answer ∈ cache.call cmp op, Along P answer.2 ops

instance Along.decidable (P : LruCache α → α → Prop) [∀ cache, DecidablePred (P cache)] :
    ∀ (cache : LruCache α) (ops : List (LruOp α)), Decidable (cache.Along cmp P ops)
  | _, [] => isTrue trivial
  | cache, op :: ops =>
    have : ∀ answer : Option α × LruCache α, Decidable (answer.2.Along cmp P ops) :=
      fun answer ↦ Along.decidable P answer.2 ops
    inferInstanceAs (Decidable (op.Inserts (P cache) ∧
      ∀ answer ∈ cache.call cmp op, answer.2.Along cmp P ops))

/-- The elements, the one used last first -/
def elements (cache : LruCache α) : List α := cache.nodes.map Node.value

/-- A cache in order that stands for a map -/
structure Stands (capacity : ℕ) (m : RecencyMap α) (cache : LruCache α) : Prop where
  inv : cache.Inv cmp
  capacity_eq : cache.capacity = capacity
  lists : m.Lists cache.elements

/-- A cache answers all calls of a run as a bounded map does, and stands for the map before and
after each of them. -/
def RunsAs (capacity : ℕ) : RecencyMap α → LruCache α → List (LruOp α) → Prop
  | m, cache, [] => Stands cmp capacity m cache
  | m, cache, op :: ops => Stands cmp capacity m cache ∧
    ∃ result cache' m', cache.call cmp op = some (result, cache') ∧
      m.Step (fun element key ↦ cmp element key = .eq) capacity op.request result m' ∧
      RunsAs capacity m' cache' ops

/-! ### One call -/

variable {cache' : LruCache α}

section Calls

variable {cmp} {cache : LruCache α} {m : RecencyMap α} {capacity : ℕ}

theorem RunsAs.stands {ops : List (LruOp α)} (h : RunsAs cmp capacity m cache ops) :
    Stands cmp capacity m cache := by
  cases ops with
  | nil => exact h
  | cons op ops => exact h.1

variable {value : α}

omit [DecidableEq α] in
theorem mem_elements : value ∈ cache.elements ↔ ∃ node ∈ cache.nodes, node.value = value := List.mem_map

omit [DecidableEq α] in
theorem Stands.clear (h : Stands cmp capacity m cache) :
    Stands cmp capacity (.empty m.now) cache.clear where
  inv := h.inv.clear
  capacity_eq := h.capacity_eq
  lists := RecencyMap.lists_empty _

omit [DecidableEq α] in
theorem Stands.ncard_elements (h : Stands cmp capacity m cache) :
    m.elements.ncard = cache.nodes.length := by
  rw [h.lists.ncard_elements, elements, length_map]

variable [Std.TransCmp cmp]

omit [DecidableEq α] in
/-- Nodes with equal elements are the same node. -/
theorem Inv.value_inj (h : cache.Inv cmp) {a b : Node α} (ha : a ∈ cache.nodes)
    (hb : b ∈ cache.nodes) (heq : cmp a.value b.value = .eq) : a = b := by
  obtain ⟨i, hi⟩ := mem_iff_getElem?.mp (h.perm.mem_iff.mpr ha)
  obtain ⟨j, hj⟩ := mem_iff_getElem?.mp (h.perm.mem_iff.mpr hb)
  rcases Nat.lt_trichotomy i j with hij | rfl | hij
  · rw [Sorted.lt h.sorted hij hi hj] at heq
    cases heq
  · exact some.inj (hi.symm.trans hj)
  · rw [Std.OrientedCmp.gt_of_lt (Sorted.lt h.sorted hij hj hi)] at heq
    cases heq

omit [Std.TransCmp cmp] in
/-- A node that is found moves to the front. -/
theorem get_found {key element : α} {cache' : LruCache α}
    (h : cache.get cmp key = some (some element, cache')) : ∃ node ∈ cache.slist,
      node.value = element ∧ cache' = { cache with nodes := node :: cache.nodes.erase node } := by
  unfold LruCache.get at h
  split at h
  · cases h
  · cases h
  · next idx _ =>
    cases hnode : cache.slist[idx]? with
    | none =>
      rw [hnode] at h
      cases h
    | some node =>
      rw [hnode] at h
      cases h
      exact ⟨node, mem_of_getElem? hnode, rfl, rfl⟩

/-- The elements without one of them -/
theorem Inv.mem_erase (h : cache.Inv cmp) {node : Node α} (hnode : node ∈ cache.nodes) (value : α) :
    value ∈ (cache.nodes.erase node).map Node.value ↔
      value ∈ cache.elements ∧ value ≠ node.value := by
  have hnodup : cache.nodes.Nodup :=
    h.perm.nodup_iff.mp (h.sorted.imp fun {a b} hlt heq ↦ by
      have hself : cmp b.value b.value = .eq := Std.ReflCmp.compare_self
      rw [heq, hself] at hlt
      cases hlt)
  constructor
  · intro hvalue
    obtain ⟨other, hother, rfl⟩ := List.mem_map.mp hvalue
    obtain ⟨hne, hmem⟩ := hnodup.mem_erase_iff.mp hother
    refine ⟨mem_map_of_mem hmem, fun heq ↦ hne (h.value_inj hmem hnode ?_)⟩
    rw [heq]
    exact Std.ReflCmp.compare_self
  · rintro ⟨hvalue, hne⟩
    obtain ⟨other, hmem, rfl⟩ := List.mem_map.mp hvalue
    refine mem_map_of_mem (hnodup.mem_erase_iff.mpr ⟨?_, hmem⟩)
    rintro rfl
    exact hne rfl

/-- A lookup -/
theorem Stands.get (h : Stands cmp capacity m cache) (key : α) : ∃ result cache' m',
    cache.get cmp key = some (result, cache') ∧
      m.Step (fun element key ↦ cmp element key = .eq) capacity (.get key) result m' ∧
      Stands cmp capacity m' cache' := by
  obtain ⟨found, cache', hget, hinv, hcapacity, -, hfound⟩ := h.inv.get key
  cases found with
  | none =>
    obtain ⟨rfl, hmiss⟩ := hfound
    refine ⟨none, cache', m, hget, .missed key fun a ha heq ↦ ?_, h⟩
    obtain ⟨node, hnode, rfl⟩ := mem_elements.mp ((h.lists.mem_iff a).mpr ha)
    exact hmiss node hnode heq
  | some element =>
    obtain ⟨-, -, -, hsame⟩ := hfound
    obtain ⟨node, hcell, rfl, rfl⟩ := get_found hget
    have hnode := h.inv.live node hcell
    refine ⟨some node.value, _, m.touch node.value, hget,
      .found key node.value ((h.lists.mem_iff _).mp (mem_map_of_mem hnode)) hsame, hinv,
      h.capacity_eq, ?_⟩
    exact h.lists.touch (erase_sublist.map Node.value) (h.inv.mem_erase hnode)

/-- An insertion of an element that is missing and fits -/
theorem Stands.insert (h : Stands cmp capacity m cache) (hmiss : cache.Misses cmp value)
    (hfits : cache.Fits cmp value) : ∃ cache' m', cache.insert cmp value = some cache' ∧
        m.Step (fun element key ↦ cmp element key = .eq) capacity (.insert value) none m' ∧
        Stands cmp capacity m' cache' := by
  obtain ⟨cache', hinsert, hinv, hcapacity, hnodes⟩ := h.inv.insert value hmiss hfits
  have hnew : value ∉ cache.elements := by
    intro hmem
    obtain ⟨node, hnode, heq⟩ := mem_elements.mp hmem
    refine hmiss node hnode ?_
    rw [heq]
    exact Std.ReflCmp.compare_self
  have hsize := h.ncard_elements
  have hle := h.inv.length_le
  by_cases hfull : cache.nodes.length = cache.capacity
  · rw [if_pos hfull] at hnodes
    have hpos := h.inv.capacity_pos
    have hsplit : cache.elements = cache.nodes.dropLast.map Node.value ++
        [(cache.nodes.getLast (ne_nil_of_length_pos (by omega))).value] := by
      rw [elements, ← map_singleton, ← map_append, dropLast_append_getLast]
    rw [hsplit, mem_append, not_or] at hnew
    have hlists := h.lists
    rw [hsplit] at hlists
    refine ⟨cache', _, hinsert, .evict value _ ?_ hlists.least, hinv, ?_, ?_⟩
    · rw [hsize, hfull, h.capacity_eq]
    · rw [hcapacity, h.capacity_eq]
    · rw [elements, hnodes]
      exact hlists.forget.touch_new hnew.1
  · rw [if_neg hfull] at hnodes
    refine ⟨cache', m.touch value, hinsert, .insert value ?_, hinv, ?_, ?_⟩
    · rw [hsize, ← h.capacity_eq]
      omega
    · rw [hcapacity, h.capacity_eq]
    · rw [elements, hnodes]
      exact h.lists.touch_new hnew

/-- A call that inserts, if anything, an element that is missing and fits -/
theorem Stands.call (h : Stands cmp capacity m cache) {op : LruOp α}
    (hmiss : op.Inserts (cache.Misses cmp)) (hfits : op.Inserts (cache.Fits cmp)) :
    ∃ result cache' m', cache.call cmp op = some (result, cache') ∧
      m.Step (fun element key ↦ cmp element key = .eq) capacity op.request result m' ∧
      Stands cmp capacity m' cache' := by
  cases op with
  | insert value =>
    obtain ⟨cache', m', hinsert, hstep, hstands⟩ := h.insert hmiss hfits
    refine ⟨none, cache', m', ?_, hstep, hstands⟩
    rw [LruCache.call, hinsert]
    rfl
  | get key => exact h.get key
  | clear => exact ⟨none, cache.clear, _, rfl, .clear, h.clear⟩
  | delete => exact ⟨none, cache.delete, _, rfl, .clear, h.clear⟩

/-! ### A new element that does not fit -/

/-- Where all elements but the last are less, the search, which leaves out the last cell, puts a new
element behind it. -/
theorem insertSlist_behind {live slist : List (Node α)} (node : Node α)
    (hlive : ∀ other ∈ slist, other ∈ live) (hsorted : Sorted cmp slist) {d : ℕ}
    (hd : d < slist.length - 1) (hless : ∀ j, j < slist.length - 1 → ∀ other,
      slist[j]? = some other → cmp other.value node.value = .lt) :
    insertSlist cmp slist.length live slist (slist.length - 1) node (some d) =
      some (slist.eraseIdx d ++ [node]) := by
  obtain ⟨pos, hfind, hpos, -, hright⟩ := findPosition_spec node.value hlive hsorted
    (Nat.le_of_eq (Nat.sub_zero _)) (Nat.zero_le _) (Nat.le_refl (slist.length - 1))
    (Nat.sub_le _ _) (fun j hj ↦ absurd hj (Nat.not_lt_zero j)) (fun j hj hj' ↦ absurd hj' (by omega))
  obtain rfl : pos = slist.length - 1 := by
    by_contra hne
    have hcell : slist[pos]? = some slist[pos] := List.getElem?_eq_getElem (by omega)
    exact hright pos le_rfl (by omega) _ hcell (hless pos (by omega) _ hcell)
  have hmove : moveElemSlist slist.length (slist.length - 1) d = (slist.eraseIdx d).length := by
    rw [length_eraseIdx, if_pos (by omega)]
    simp only [moveElemSlist]
    grind
  rw [insertSlist, if_neg (by omega), hfind]
  dsimp only [getD_some]
  rw [hmove, insertIdx_length_self]

/-- A new element that does not fit gets behind the greatest one: the array is not sorted. -/
theorem Inv.insert_misplaced (h : cache.Inv cmp) (hfits : ¬ cache.Fits cmp value)
    (hinsert : cache.insert cmp value = some cache') : ¬ cache'.Inv cmp := by
  unfold Fits at hfits
  push Not at hfits
  obtain ⟨hfull, greatest, hgreatest, hgt, hleaves, hothers⟩ := hfits
  have hlen := h.perm.length_eq
  obtain ⟨last, hlast⟩ : ∃ last, cache.nodes.getLast? = some last :=
    ne_none_iff_exists'.mp fun hnone ↦ by
      rw [List.getLast?_eq_none_iff.mp hnone] at hgreatest
      cases hgreatest
  have hne : last ≠ greatest := fun heq ↦ hleaves (heq ▸ hlast)
  have hmem : last ∈ cache.nodes := mem_of_getLast? hlast
  obtain ⟨d, hfound, hd⟩ := h.search_last hmem (hfull.symm.trans hlen.symm)
  -- the greatest node is in the last cell
  obtain ⟨e, he⟩ := mem_iff_getElem?.mp (h.perm.mem_iff.mpr hgreatest)
  have hlt := (List.getElem?_eq_some_iff.mp he).1
  have hlater : ∀ j, e < j → ∀ other, cache.slist[j]? = some other → False := by
    intro j hj other hother
    have hrise := Sorted.lt h.sorted hj he hother
    have hmember := h.live other (mem_of_getElem? hother)
    have hother' : other ≠ greatest := by
      rintro rfl
      have hself : cmp other.value other.value = .eq := Std.ReflCmp.compare_self
      rw [hself] at hrise
      cases hrise
    have hless := Std.TransCmp.lt_trans hrise (hothers other hmember hother')
    rw [hgt] at hless
    cases hless
  obtain rfl : e = cache.slist.length - 1 := by
    by_contra hend
    exact hlater (cache.slist.length - 1) (by omega) _ (List.getElem?_eq_getElem (by omega))
  have hdlt : d < cache.slist.length - 1 := by
    have hdlt := (List.getElem?_eq_some_iff.mp hd).1
    by_contra hend
    obtain rfl : d = cache.slist.length - 1 := by omega
    exact hne (some.inj (hd.symm.trans he))
  have hbehind := insertSlist_behind ⟨cache.address, value⟩ h.live h.sorted hdlt
    fun j hj other hother ↦ hothers other (h.live _ (mem_of_getElem? hother)) (by
      rintro rfl
      have hrise := Sorted.lt h.sorted hj hother he
      have hself : cmp other.value other.value = .eq := Std.ReflCmp.compare_self
      rw [hself] at hrise
      cases hrise)
  rw [hlen, hfull] at hbehind
  rw [LruCache.insert, if_pos hfull, hlast] at hinsert
  dsimp only at hinsert
  rw [hfound] at hinsert
  dsimp only [getD_some] at hinsert
  rw [hbehind, some.injEq] at hinsert
  subst hinsert
  intro hinv
  have hsorted := (pairwise_append.mp hinv.sorted).2.2 greatest
    (mem_eraseIdx_iff_getElem?.mpr ⟨_, hdlt.ne', he⟩) _ mem_cons_self
  rw [hgt] at hsorted
  cases hsorted

end Calls

/-! ### A whole run -/

section Runs

variable {cmp} {cache : LruCache α} {m : RecencyMap α} {capacity : ℕ}

/-- A run that goes on as a map after a call inserted, if anything, an element that fits. -/
theorem RunsAs.fits [Std.TransCmp cmp] {op : LruOp α} {ops : List (LruOp α)} {result : Option α}
    {m' : RecencyMap α} (h : cache.Inv cmp) (hcall : cache.call cmp op = some (result, cache'))
    (hruns : RunsAs cmp capacity m' cache' ops) : op.Inserts (cache.Fits cmp) := by
  cases op with
  | insert value =>
    obtain ⟨after, hinsert, heq⟩ := map_eq_some_iff.mp hcall
    cases heq
    by_contra hfits
    exact h.insert_misplaced hfits hinsert hruns.stands.inv
  | get key => trivial
  | clear => trivial
  | delete => trivial

theorem Stands.runsAs_iff_along [Std.TransCmp cmp] {ops : List (LruOp α)}
    (h : Stands cmp capacity m cache)
    (hmisses : cache.Along cmp (fun cache ↦ cache.Misses cmp) ops) :
    RunsAs cmp capacity m cache ops ↔ cache.Along cmp (fun cache ↦ cache.Fits cmp) ops := by
  induction ops generalizing cache m with
  | nil => exact iff_of_true h trivial
  | cons op ops ih =>
    obtain ⟨hmiss, hmisses⟩ := hmisses
    constructor
    · rintro ⟨-, result, cache', m', hcall, -, hruns⟩
      refine ⟨hruns.fits h.inv hcall, fun answer hanswer ↦ ?_⟩
      obtain rfl : (result, cache') = answer := some.inj (hcall.symm.trans hanswer)
      exact (ih hruns.stands (hmisses _ hcall)).mp hruns
    · rintro ⟨hfits, hrest⟩
      obtain ⟨result, cache', m', hcall, hstep, hstands⟩ := h.call hmiss hfits
      exact ⟨h, result, cache', m', hcall, hstep,
        (ih hstands (hmisses _ hcall)).mpr (hrest _ hcall)⟩

end Runs

omit [DecidableEq α] in
theorem stands_init {capacity : ℕ} (h : 0 < capacity) :
    Stands cmp capacity (.empty 0) (init capacity : LruCache α) where
  inv := init_inv h
  capacity_eq := rfl
  lists := RecencyMap.lists_empty 0

/-- A new cache whose callers insert missing elements only runs as a map that drops what was used
least recently exactly when all these elements fit. -/
theorem runsAs_iff [Std.TransCmp cmp] {capacity : ℕ} (h : 0 < capacity) {ops : List (LruOp α)}
    (hmisses : (init capacity).Along cmp (fun cache ↦ cache.Misses cmp) ops) :
    RunsAs cmp capacity (.empty 0) (init capacity) ops ↔
      (init capacity).Along cmp (fun cache ↦ cache.Fits cmp) ops :=
  (stands_init cmp h).runsAs_iff_along hmisses

/-- A new element that is greater than both others -/
theorem runsAs_rising : RunsAs compare 2 (.empty 0) (init 2 : LruCache ℕ)
    [.insert 1, .insert 3, .get 1, .insert 5, .get 1, .get 3] :=
  (runsAs_iff compare (by decide) (by decide)).mpr (by decide)

/-- A new element that is less than one of the others, which stays, is not found again. -/
theorem not_runsAs_between : (init 2 : LruCache ℕ).Along compare (fun cache ↦ cache.Misses compare)
        [.insert 1, .insert 5, .insert 3, .get 3] ∧
      (([.insert 1, .insert 5, .insert 3] : List (LruOp ℕ)).foldlM
        (fun (cache : LruCache ℕ) op ↦ (cache.call compare op).map Prod.snd) (init 2)).map
          (fun cache : LruCache ℕ ↦ (cache.elements, (cache.call compare (.get 3)).map Prod.fst)) =
        some ([3, 5], some none) ∧
      ¬ RunsAs compare 2 (.empty 0) (init 2) [.insert 1, .insert 5, .insert 3, .get 3] := by
  refine ⟨by decide, by decide, ?_⟩
  rw [(stands_init compare (by decide)).runsAs_iff_along (by decide)]
  decide

end LruCache

end ZenohPico.Collections
