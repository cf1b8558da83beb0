import Mathlib.Data.List.Perm.Basic

/-!
The cache that forgets what has not been used for longest (`src/collections/lru_cache.c`).

The nodes are in a list, the most recently used one first, and in an array that is sorted by their
elements and searched by halves. When the cache is full the last node of the list leaves both, and
a new one takes its cell in the array, between which and its own place the others move. The search
for that place leaves out the last cell, so that a new element that is less than that of the last
cell only, and not in the place of it, gets behind it: the array is then not sorted, nodes are not
found in it that are there, and a node that leaves the list stays in the array when it is freed.
-/

open List Option

namespace ZenohPico.Collections

variable {α : Type}

/-- A node: its address, and the element in it -/
structure Node (α : Type) where
  address : ℕ
  value : α
deriving DecidableEq, Repr

/-- `_z_lru_cache_t`: the list of nodes, and the cells of the sorted array that are in use. The
address is that of the next node to be allocated. -/
structure LruCache (α : Type) where
  capacity : ℕ
  nodes : List (Node α)
  slist : List (Node α)
  address : ℕ
deriving DecidableEq, Repr

/-- `_z_lru_cache_init` -/
def LruCache.init (capacity : ℕ) : LruCache α := ⟨capacity, [], [], 0⟩

/-- `_z_lru_cache_clear` -/
def LruCache.clear (cache : LruCache α) : LruCache α := { cache with nodes := [], slist := [] }

/-! ### The sorted array -/

/-- Where `_z_lru_cache_move_elem_slist` leaves room for a new element, when the one at `delIdx`
goes -/
def moveElemSlist (capacity addIdx delIdx : ℕ) : ℕ :=
  if addIdx = delIdx then addIdx
  else if delIdx ≥ addIdx then addIdx
  else if addIdx ≠ capacity - 1 then addIdx - 1
  else addIdx

theorem moveElemSlist_of_last {capacity addIdx delIdx : ℕ}
    (h : delIdx < addIdx → addIdx = capacity - 1) :
    moveElemSlist capacity addIdx delIdx = addIdx := by
  unfold moveElemSlist
  split_ifs with heq hge hne
  · rfl
  · rfl
  · exact absurd (h (Nat.lt_of_not_le hge)) hne
  · rfl

variable [DecidableEq α] (cmp : α → α → Ordering)

/-- The element of a node. One that has been freed has none. -/
def Node.read (live : List (Node α)) (node : Node α) : Option α :=
  if node ∈ live then some node.value else none

/-- `_z_lru_cache_search_slist`, between `lIdx` and `hIdx`, where `hIdx` is the index after the
last. There is no answer where a node is read that has been freed. -/
def searchSlist (live slist : List (Node α)) (value : α) : ℕ → ℕ → ℕ → Option (Option ℕ)
  | 0, _, _ => some none
  | n + 1, lIdx, hIdx =>
    if lIdx < hIdx then
      let currIdx := (lIdx + (hIdx - 1)) / 2
      match slist[currIdx]?.bind (Node.read live) with
      | none => none
      | some curr =>
        match cmp curr value with
        | .eq => some (some currIdx)
        | .lt => searchSlist live slist value n (currIdx + 1) hIdx
        | .gt => searchSlist live slist value n lIdx currIdx
    else some none

/-- `_z_lru_cache_find_position`, between `start` and `stop`, the index after the last -/
def findPosition (live slist : List (Node α)) (value : α) : ℕ → ℕ → ℕ → Option ℕ
  | 0, start, _ => some start
  | n + 1, start, stop =>
    if start < stop then
      let mid := start + (stop - 1 - start) / 2
      match slist[mid]?.bind (Node.read live) with
      | none => none
      | some curr =>
        match cmp curr value with
        | .lt => findPosition live slist value n (mid + 1) stop
        | _ => findPosition live slist value n start mid
    else some start

/-- `_z_lru_cache_insert_slist`, where `len` is that of the cache. The elements between the cell
that is given up and the place of the new one move by one cell. -/
def insertSlist (capacity : ℕ) (live slist : List (Node α)) (len : ℕ) (node : Node α)
    (delIdx : Option ℕ) : Option (List (Node α)) :=
  if len = 0 then some [node]
  else
    match findPosition cmp live slist node.value len 0 len with
    | none => none
    | some pos =>
      let del := delIdx.getD len
      some ((slist.eraseIdx del).insertIdx (moveElemSlist capacity pos del) node)

/-! ### The cache -/

namespace LruCache

/-- `_z_lru_cache_get`: the element that is equal, and the cache after that -/
def get (cache : LruCache α) (value : α) : Option (Option α × LruCache α) :=
  match searchSlist cmp cache.nodes cache.slist value cache.nodes.length 0 cache.nodes.length with
  | none => none
  | some none => some (none, cache)
  | some (some idx) =>
    match cache.slist[idx]? with
    | none => none
    | some node => some (some node.value, { cache with nodes := node :: cache.nodes.erase node })

/-- `_z_lru_cache_insert`. The node that leaves the cache is freed at the end. -/
def insert (cache : LruCache α) (value : α) : Option (LruCache α) :=
  let node : Node α := ⟨cache.address, value⟩
  if cache.nodes.length = cache.capacity then
    match cache.nodes.getLast? with
    | none => none
    | some last =>
      match searchSlist cmp cache.nodes cache.slist last.value cache.capacity 0 cache.capacity with
      | none => none
      | some found =>
        match insertSlist cmp cache.capacity cache.nodes cache.slist (cache.capacity - 1) node
            (some (found.getD 0)) with
        | none => none
        | some slist =>
          some ⟨cache.capacity, node :: cache.nodes.dropLast, slist, cache.address + 1⟩
  else
    match insertSlist cmp cache.capacity cache.nodes cache.slist cache.nodes.length node none with
    | none => none
    | some slist => some ⟨cache.capacity, node :: cache.nodes, slist, cache.address + 1⟩

/-- The array is the list, sorted, and the list is not longer than the capacity. -/
structure Inv (cache : LruCache α) : Prop where
  capacity_pos : 0 < cache.capacity
  length_le : cache.nodes.length ≤ cache.capacity
  perm : cache.slist.Perm cache.nodes
  sorted : cache.slist.Pairwise fun a b ↦ cmp a.value b.value = .lt

/-- No node is equal to an element. -/
def Misses (cache : LruCache α) (value : α) : Prop :=
  ∀ node ∈ cache.nodes, cmp node.value value ≠ .eq

/-- When the cache is full, there is not exactly one node that is greater than a new element, or it
is the one that leaves. -/
def Fits (cache : LruCache α) (value : α) : Prop :=
  cache.nodes.length = cache.capacity → ∀ greatest ∈ cache.nodes,
    cmp greatest.value value = .gt → cache.nodes.getLast? ≠ some greatest →
      ∃ node ∈ cache.nodes, node ≠ greatest ∧ cmp node.value value ≠ .lt

instance (cache : LruCache α) (value : α) : Decidable (cache.Misses cmp value) :=
  inferInstanceAs (Decidable (∀ node ∈ cache.nodes, _))

instance (cache : LruCache α) (value : α) : Decidable (cache.Fits cmp value) :=
  inferInstanceAs (Decidable (_ → ∀ greatest ∈ cache.nodes, _ → _ → ∃ node ∈ cache.nodes, _))

end LruCache

/-! ### The search by halves -/

section Search

variable {cmp} {live slist : List (Node α)}

/-- The elements of an array rise. -/
abbrev Sorted (cmp : α → α → Ordering) (slist : List (Node α)) : Prop :=
  slist.Pairwise fun a b ↦ cmp a.value b.value = .lt

omit [DecidableEq α] in
theorem Sorted.lt (h : Sorted cmp slist) {i j : ℕ} {a b : Node α} (hij : i < j)
    (ha : slist[i]? = some a) (hb : slist[j]? = some b) : cmp a.value b.value = .lt := by
  obtain ⟨hi, rfl⟩ := List.getElem?_eq_some_iff.mp ha
  obtain ⟨hj, rfl⟩ := List.getElem?_eq_some_iff.mp hb
  exact pairwise_iff_getElem.mp h i j hi hj hij

/-- A cell of the array is read when its node is in use. -/
theorem read_cell (hlive : ∀ node ∈ slist, node ∈ live) {i : ℕ} (hi : i < slist.length) :
    ∃ node, slist[i]? = some node ∧ slist[i]?.bind (Node.read live) = some node.value := by
  refine ⟨slist[i], List.getElem?_eq_getElem hi, ?_⟩
  rw [List.getElem?_eq_getElem hi, bind_some, Node.read, if_pos (hlive _ (getElem_mem hi))]

variable [Std.TransCmp cmp]

/-- The search finds a node that is equal when there is one. -/
theorem searchSlist_spec (value : α) (hlive : ∀ node ∈ slist, node ∈ live)
    (hsorted : Sorted cmp slist) {n lIdx hIdx : ℕ} (hn : hIdx - lIdx ≤ n) (hh : hIdx ≤ slist.length) :
    (∃ i node, searchSlist cmp live slist value n lIdx hIdx = some (some i) ∧
      slist[i]? = some node ∧ cmp node.value value = .eq) ∨
    searchSlist cmp live slist value n lIdx hIdx = some none ∧
      ∀ j, lIdx ≤ j → j < hIdx → ∀ node, slist[j]? = some node → cmp node.value value ≠ .eq := by
  induction n generalizing lIdx hIdx with
  | zero => exact .inr ⟨rfl, fun j hl hj ↦ by omega⟩
  | succ n ih =>
    rw [searchSlist]
    by_cases hlt : lIdx < hIdx
    · obtain ⟨node, hnode, hread⟩ :=
        read_cell hlive (show (lIdx + (hIdx - 1)) / 2 < slist.length by omega)
      rw [if_pos hlt]
      dsimp only
      rw [hread]
      dsimp only
      cases hcmp : cmp node.value value with
      | eq => exact .inl ⟨_, node, rfl, hnode, hcmp⟩
      | lt =>
        refine (@ih ((lIdx + (hIdx - 1)) / 2 + 1) hIdx (by omega) hh).imp_right ?_
        rintro ⟨hnone, hright⟩
        refine ⟨hnone, fun j hl hj other hother ↦ ?_⟩
        rcases Nat.lt_trichotomy j ((lIdx + (hIdx - 1)) / 2) with hjm | rfl | hjm
        · rw [Std.TransCmp.lt_trans (hsorted.lt hjm hother hnode) hcmp]
          decide
        · obtain rfl : node = other := some.inj (hnode.symm.trans hother)
          rw [hcmp]
          decide
        · exact hright j hjm hj other hother
      | gt =>
        refine (@ih lIdx ((lIdx + (hIdx - 1)) / 2) (by omega) (by omega)).imp_right ?_
        rintro ⟨hnone, hleft⟩
        refine ⟨hnone, fun j hl hj other hother ↦ ?_⟩
        rcases Nat.lt_trichotomy j ((lIdx + (hIdx - 1)) / 2) with hjm | rfl | hjm
        · exact hleft j hl hjm other hother
        · obtain rfl : node = other := some.inj (hnode.symm.trans hother)
          rw [hcmp]
          decide
        · rw [Std.OrientedCmp.gt_of_lt (Std.TransCmp.lt_trans (Std.OrientedCmp.lt_of_gt hcmp)
            (hsorted.lt hjm hnode hother))]
          decide
    · rw [if_neg hlt]
      exact .inr ⟨rfl, fun j hl hj ↦ by omega⟩

/-- The position that is found separates the lesser elements of a part from the others. -/
theorem findPosition_spec (value : α) (hlive : ∀ node ∈ slist, node ∈ live)
    (hsorted : Sorted cmp slist) {n size start stop : ℕ} (hn : stop - start ≤ n)
    (hle : start ≤ stop) (hstop : stop ≤ size)
    (hsize : size ≤ slist.length)
    (hleft : ∀ j, j < start → ∀ node, slist[j]? = some node → cmp node.value value = .lt)
    (hright : ∀ j, stop ≤ j → j < size → ∀ node, slist[j]? = some node →
      cmp node.value value ≠ .lt) :
    ∃ pos, findPosition cmp live slist value n start stop = some pos ∧ pos ≤ size ∧
      (∀ j, j < pos → ∀ node, slist[j]? = some node → cmp node.value value = .lt) ∧
      ∀ j, pos ≤ j → j < size → ∀ node, slist[j]? = some node → cmp node.value value ≠ .lt := by
  induction n generalizing start stop with
  | zero =>
    obtain rfl : start = stop := by omega
    exact ⟨start, rfl, hstop, hleft, hright⟩
  | succ n ih =>
    rw [findPosition]
    by_cases hlt : start < stop
    · obtain ⟨node, hnode, hread⟩ :=
        read_cell hlive (show start + (stop - 1 - start) / 2 < slist.length by omega)
      rw [if_pos hlt]
      dsimp only
      rw [hread]
      dsimp only
      by_cases hcmp : cmp node.value value = .lt
      · simp only [hcmp]
        refine ih (by omega) (by omega) hstop (fun j hj other hother ↦ ?_) hright
        rcases Nat.lt_or_ge j (start + (stop - 1 - start) / 2) with hjm | hjm
        · exact Std.TransCmp.lt_trans (hsorted.lt hjm hother hnode) hcmp
        · obtain rfl : j = start + (stop - 1 - start) / 2 := by omega
          obtain rfl : node = other := some.inj (hnode.symm.trans hother)
          exact hcmp
      · have hright' : ∀ j, start + (stop - 1 - start) / 2 ≤ j → j < size → ∀ other,
            slist[j]? = some other → cmp other.value value ≠ .lt := by
          intro j hj hjs other hother hother'
          rcases Nat.eq_or_lt_of_le hj with rfl | hjm
          · obtain rfl : node = other := some.inj (hnode.symm.trans hother)
            exact hcmp hother'
          · exact hcmp (Std.TransCmp.lt_trans (hsorted.lt hjm hnode hother) hother')
        have hrec := ih (by omega) (by omega) (by omega) hleft hright'
        split
        · next heq => exact absurd heq hcmp
        · exact hrec
    · rw [if_neg hlt]
      obtain rfl : start = stop := by omega
      exact ⟨start, rfl, hstop, hleft, hright⟩

/-! ### The place of a new element -/

omit [DecidableEq α] [Std.TransCmp cmp] in
theorem sorted_iff : Sorted cmp slist ↔ ∀ (i j : ℕ) (a b : Node α), i < j → slist[i]? = some a →
    slist[j]? = some b → cmp a.value b.value = .lt := by
  refine ⟨fun h i j a b hij ha hb ↦ Sorted.lt h hij ha hb, fun h ↦ pairwise_iff_getElem.mpr ?_⟩
  intro i j hi hj hij
  exact h i j _ _ hij (List.getElem?_eq_getElem hi) (List.getElem?_eq_getElem hj)

omit [DecidableEq α] in
/-- A new element between the lesser and the greater ones -/
theorem Sorted.insertIdx (h : Sorted cmp slist) {pos : ℕ} {node : Node α} (hpos : pos ≤ slist.length)
    (hleft : ∀ j, j < pos → ∀ other, slist[j]? = some other → cmp other.value node.value = .lt)
    (hright : ∀ j, pos ≤ j → ∀ other, slist[j]? = some other →
      cmp other.value node.value = .gt) : Sorted cmp (slist.insertIdx pos node) := by
  rw [sorted_iff]
  intro i j a b hij ha hb
  rw [List.getElem?_insertIdx] at ha hb
  rcases Nat.lt_trichotomy i pos with hi | rfl | hi
  · rw [if_pos hi] at ha
    rcases Nat.lt_trichotomy j pos with hj | rfl | hj
    · rw [if_pos hj] at hb
      exact h.lt hij ha hb
    · rw [if_neg (Nat.lt_irrefl _), if_pos rfl, if_pos hpos] at hb
      obtain rfl := some.inj hb
      exact hleft i hi a ha
    · rw [if_neg (by omega), if_neg (by omega)] at hb
      exact h.lt (by omega) ha hb
  · rw [if_neg (Nat.lt_irrefl _), if_pos rfl, if_pos hpos] at ha
    obtain rfl := some.inj ha
    rw [if_neg (by omega), if_neg (by omega)] at hb
    exact Std.OrientedCmp.lt_of_gt (hright _ (by omega) b hb)
  · rw [if_neg (by omega), if_neg (by omega)] at ha hb
    exact h.lt (by omega) ha hb

omit [DecidableEq α] [Std.TransCmp cmp] in
/-- What is not less than an element is greater when it is not equal. -/
theorem cmp_gt {a b : α} (hlt : cmp a b ≠ .lt) (heq : cmp a b ≠ .eq) : cmp a b = .gt := by
  cases h : cmp a b with
  | lt => exact absurd h hlt
  | eq => exact absurd h heq
  | gt => rfl

omit [DecidableEq α] in
/-- What is not less than a missing element is followed by greater ones only. -/
theorem Sorted.gt_of_le (h : Sorted cmp slist) {value : α}
    (hmiss : ∀ other ∈ slist, cmp other.value value ≠ .eq) {i j : ℕ} {a b : Node α} (hij : i ≤ j)
    (ha : slist[i]? = some a) (hb : slist[j]? = some b) (hna : cmp a.value value ≠ .lt) :
    cmp b.value value = .gt := by
  refine cmp_gt (fun hnb ↦ ?_) (hmiss b (mem_of_getElem? hb))
  rcases Nat.eq_or_lt_of_le hij with rfl | hlt
  · obtain rfl : a = b := some.inj (ha.symm.trans hb)
    exact hna hnb
  · exact hna (Std.TransCmp.lt_trans (h.lt hlt ha hb) hnb)

omit [DecidableEq α] [Std.TransCmp cmp] in
/-- Without the element that goes, the position to which the new one is moved separates the lesser
elements from the greater ones. The search has left out the last cell, so a position at its end is
one of these only if the last cell is less as well. -/
theorem moveElemSlist_separates {value : α} {d pos : ℕ} (hd : d < slist.length)
    (hpos : pos ≤ slist.length - 1)
    (hleft : ∀ j, j < pos → ∀ other, slist[j]? = some other → cmp other.value value = .lt)
    (hlast : d < pos → pos = slist.length - 1 → ∀ other, slist[pos]? = some other →
      cmp other.value value = .lt)
    (hafter : pos < slist.length - 1 → ∀ i, pos ≤ i → ∀ other, slist[i]? = some other →
      cmp other.value value = .gt) : moveElemSlist slist.length pos d ≤ (slist.eraseIdx d).length ∧
      (∀ j, j < moveElemSlist slist.length pos d → ∀ other, (slist.eraseIdx d)[j]? = some other →
        cmp other.value value = .lt) ∧
      ∀ j, moveElemSlist slist.length pos d ≤ j → ∀ other, (slist.eraseIdx d)[j]? = some other →
        cmp other.value value = .gt := by
  have hbound : ∀ (i : ℕ) (other : Node α), slist[i]? = some other → i < slist.length :=
    fun i other hother ↦ (List.getElem?_eq_some_iff.mp hother).1
  simp only [length_eraseIdx, if_pos hd, List.getElem?_eraseIdx]
  rcases Nat.lt_or_ge d pos with hdpos | hdpos
  · by_cases hend : pos = slist.length - 1
    · rw [moveElemSlist_of_last fun _ ↦ hend]
      refine ⟨hpos, fun j hj other hother ↦ ?_, fun j hj other hother ↦ ?_⟩
      · split at hother
        · exact hleft j hj other hother
        · rcases Nat.lt_or_ge (j + 1) pos with hj' | hj'
          · exact hleft (j + 1) hj' other hother
          · obtain rfl : pos = j + 1 := by omega
            exact hlast hdpos hend other hother
      · rw [if_neg (by omega)] at hother
        exact absurd (hbound _ other hother) (by omega)
    · have hmove : moveElemSlist slist.length pos d = pos - 1 := by
        simp only [moveElemSlist]
        grind
      rw [hmove]
      refine ⟨by omega, fun j hj other hother ↦ ?_, fun j hj other hother ↦ ?_⟩
      · split at hother
        · exact hleft j (by omega) other hother
        · exact hleft (j + 1) (by omega) other hother
      · rw [if_neg (by omega)] at hother
        exact hafter (by omega) (j + 1) (by omega) other hother
  · rw [moveElemSlist_of_last fun hlt ↦ absurd hdpos (Nat.not_le_of_gt hlt)]
    refine ⟨hpos, fun j hj other hother ↦ ?_, fun j hj other hother ↦ ?_⟩
    · rw [if_pos (by omega)] at hother
      exact hleft j hj other hother
    · split at hother
      · exact hafter (by omega) j hj other hother
      · have := hbound _ other hother
        exact hafter (by omega) (j + 1) (by omega) other hother

/-- A new element takes the place of one that goes, or its own between the others, when it is not
the second greatest. -/
theorem insertSlist_evict (node : Node α) (hlive : ∀ node ∈ slist, node ∈ live)
    (hsorted : Sorted cmp slist) {d : ℕ} (hd : d < slist.length)
    (hmiss : ∀ other ∈ slist, cmp other.value node.value ≠ .eq)
    (hfits : d < slist.length - 1 → (∀ j, j < slist.length - 1 → ∀ other, slist[j]? = some other →
        cmp other.value node.value = .lt) →
      ∀ other, slist[slist.length - 1]? = some other → cmp other.value node.value = .lt) :
    ∃ slist', insertSlist cmp slist.length live slist (slist.length - 1) node (some d) =
        some slist' ∧ slist'.Perm (node :: slist.eraseIdx d) ∧ Sorted cmp slist' := by
  rw [insertSlist]
  by_cases hone : slist.length - 1 = 0
  · rw [if_pos hone]
    have hnil : slist.eraseIdx d = [] := by
      rw [← length_eq_zero_iff, length_eraseIdx]
      split <;> omega
    rw [hnil]
    exact ⟨_, rfl, .refl _, pairwise_singleton _ _⟩
  · rw [if_neg hone]
    obtain ⟨pos, hfind, hpos, hleft, hright⟩ := findPosition_spec node.value hlive
      hsorted (Nat.le_of_eq (Nat.sub_zero _)) (Nat.zero_le _) (Nat.le_refl (slist.length - 1))
      (Nat.sub_le _ _)
      (fun j hj ↦ absurd hj (Nat.not_lt_zero j)) (fun j hj hj' ↦ absurd hj' (by omega))
    rw [hfind]
    dsimp only [getD_some]
    have hlast : d < pos → pos = slist.length - 1 → ∀ other, slist[pos]? = some other →
        cmp other.value node.value = .lt := by
      rintro hdpos rfl
      exact hfits hdpos hleft
    have hafter : pos < slist.length - 1 → ∀ i, pos ≤ i → ∀ other, slist[i]? = some other →
        cmp other.value node.value = .gt := by
      intro hlt i hi other hother
      have hcell : slist[pos]? = some slist[pos] := List.getElem?_eq_getElem (by omega)
      exact hsorted.gt_of_le hmiss hi hcell hother (hright pos (Nat.le_refl _) hlt _ hcell)
    have hbase : Sorted cmp (slist.eraseIdx d) := hsorted.sublist (eraseIdx_sublist _ _)
    obtain ⟨hle, hl, hr⟩ := moveElemSlist_separates hd hpos hleft hlast hafter
    exact ⟨_, rfl, perm_insertIdx _ _ hle, hbase.insertIdx hle hl hr⟩

/-- A new element takes its own place between the others. -/
theorem insertSlist_add (node : Node α) (hlive : ∀ node ∈ slist, node ∈ live)
    (hsorted : Sorted cmp slist) (capacity : ℕ) (hcapacity : slist.length < capacity)
    (hmiss : ∀ other ∈ slist, cmp other.value node.value ≠ .eq) :
    ∃ slist', insertSlist cmp capacity live slist slist.length node none = some slist' ∧
      slist'.Perm (node :: slist) ∧ Sorted cmp slist' := by
  rw [insertSlist]
  by_cases hnil : slist.length = 0
  · obtain rfl := length_eq_zero_iff.mp hnil
    exact ⟨_, if_pos rfl, .refl _, pairwise_singleton _ _⟩
  · rw [if_neg hnil]
    obtain ⟨pos, hfind, hpos, hleft, hright⟩ := findPosition_spec node.value hlive
      hsorted (Nat.le_of_eq (Nat.sub_zero _)) (Nat.zero_le _) (Nat.le_refl slist.length)
      (Nat.le_refl _) (fun j hj ↦ absurd hj (Nat.not_lt_zero j))
      (fun j hj hj' ↦ absurd hj' (by omega))
    have hmove : moveElemSlist capacity pos slist.length = pos := by
      simp only [moveElemSlist]
      grind
    rw [hfind]
    dsimp only [getD_none]
    rw [hmove, eraseIdx_of_length_le (Nat.le_refl _)]
    refine ⟨_, rfl, perm_insertIdx _ _ hpos, Sorted.insertIdx hsorted hpos hleft ?_⟩
    intro j hj other hother
    exact cmp_gt (hright j hj (List.getElem?_eq_some_iff.mp hother).1 other hother)
      (hmiss other (mem_of_getElem? hother))

end Search

/-! ### What the operations do -/

namespace LruCache

variable {cmp} {cache : LruCache α}

omit [DecidableEq α] in
theorem init_inv {capacity : ℕ} (h : 0 < capacity) : (init capacity : LruCache α).Inv cmp where
  capacity_pos := h
  length_le := Nat.zero_le _
  perm := .refl _
  sorted := .nil

omit [DecidableEq α] in
theorem Inv.clear (h : cache.Inv cmp) : cache.clear.Inv cmp where
  capacity_pos := h.capacity_pos
  length_le := Nat.zero_le _
  perm := .refl _
  sorted := .nil

omit [DecidableEq α] in
theorem Inv.live (h : cache.Inv cmp) : ∀ node ∈ cache.slist, node ∈ cache.nodes :=
  fun _ hnode ↦ h.perm.mem_iff.mp hnode

variable [Std.TransCmp cmp]

/-- A lookup finds a node that is equal when there is one, and keeps all nodes. -/
theorem Inv.get (h : cache.Inv cmp) (value : α) : ∃ found cache',
    cache.get cmp value = some (found, cache') ∧ cache'.Inv cmp ∧
      cache'.capacity = cache.capacity ∧ cache'.nodes.Perm cache.nodes ∧
      match found with
      | none => cache' = cache ∧ cache.Misses cmp value
      | some element => ∃ node ∈ cache.nodes, node.value = element ∧ cmp element value = .eq := by
  have hlen := h.perm.length_eq
  rw [LruCache.get]
  rcases searchSlist_spec value h.live h.sorted (Nat.le_of_eq (Nat.sub_zero _))
    (Nat.le_of_eq hlen.symm) with ⟨i, node, hfound, hnode, hcmp⟩ | ⟨hnone, hmiss⟩
  · rw [hfound]
    dsimp only
    rw [hnode]
    have hmem : node ∈ cache.nodes := h.live node (mem_of_getElem? hnode)
    have hperm : (node :: cache.nodes.erase node).Perm cache.nodes :=
      (perm_cons_erase hmem).symm
    exact ⟨_, _, rfl, ⟨h.capacity_pos, hperm.length_eq ▸ h.length_le, h.perm.trans hperm.symm,
      h.sorted⟩, rfl, hperm, node, hmem, rfl, hcmp⟩
  · rw [hnone]
    refine ⟨_, _, rfl, h, rfl, .refl _, rfl, fun node hnode ↦ ?_⟩
    obtain ⟨j, hj⟩ := mem_iff_getElem?.mp (h.perm.mem_iff.mpr hnode)
    exact hmiss j (Nat.zero_le _) (hlen ▸ (List.getElem?_eq_some_iff.mp hj).1) node hj

/-- The node that leaves is found in the array. -/
theorem Inv.search_last (h : cache.Inv cmp) {last : Node α} (hlast : last ∈ cache.nodes) {n : ℕ}
    (hn : n = cache.slist.length) : ∃ d, searchSlist cmp cache.nodes cache.slist last.value n 0 n =
      some (some d) ∧ cache.slist[d]? = some last := by
  obtain ⟨j, hj⟩ := mem_iff_getElem?.mp (h.perm.mem_iff.mpr hlast)
  have hself : cmp last.value last.value = .eq := Std.ReflCmp.compare_self
  subst hn
  rcases searchSlist_spec last.value h.live h.sorted (Nat.le_of_eq (Nat.sub_zero _))
    (Nat.le_refl _) with ⟨d, node, hfound, hnode, hcmp⟩ | ⟨-, hmiss⟩
  · refine ⟨d, hfound, ?_⟩
    rcases Nat.lt_trichotomy d j with hdj | rfl | hdj
    · rw [Sorted.lt h.sorted hdj hnode hj] at hcmp
      cases hcmp
    · exact hj
    · rw [Std.OrientedCmp.gt_of_lt (Sorted.lt h.sorted hdj hj hnode)] at hcmp
      cases hcmp
  · exact absurd hself (hmiss j (Nat.zero_le _) (List.getElem?_eq_some_iff.mp hj).1 last hj)

/-- A new element that fits gets into the cache, and the node that was used least recently leaves
it when it is full. -/
theorem Inv.insert (h : cache.Inv cmp) (value : α) (hmiss : cache.Misses cmp value)
    (hfits : cache.Fits cmp value) : ∃ cache', cache.insert cmp value = some cache' ∧
      cache'.Inv cmp ∧ cache'.capacity = cache.capacity ∧ cache'.nodes = ⟨cache.address, value⟩ ::
        if cache.nodes.length = cache.capacity then cache.nodes.dropLast else cache.nodes := by
  have hlen := h.perm.length_eq
  have hcells : ∀ node ∈ cache.slist, cmp node.value value ≠ .eq :=
    fun node hnode ↦ hmiss node (h.live node hnode)
  have hpos := h.capacity_pos
  rw [LruCache.insert]
  by_cases hfull : cache.nodes.length = cache.capacity
  · obtain ⟨last, hlast⟩ : ∃ last, cache.nodes.getLast? = some last :=
      ne_none_iff_exists'.mp fun hnone ↦ by
        rw [List.getLast?_eq_none_iff] at hnone
        rw [hnone, length_nil] at hfull
        omega
    have hsplit : cache.nodes = cache.nodes.dropLast ++ [last] :=
      (dropLast_append_getLast? last (by simpa using hlast)).symm
    have hmem : last ∈ cache.nodes := mem_of_getLast? hlast
    obtain ⟨d, hfound, hd⟩ := h.search_last hmem (hfull.symm.trans hlen.symm)
    have hdlt := (List.getElem?_eq_some_iff.mp hd).1
    obtain ⟨slist', hslist, hperm, hsorted⟩ := insertSlist_evict ⟨cache.address, value⟩ h.live
      h.sorted hdlt hcells (by
        intro hdend hall other hother
        by_contra hnlt
        have hgt := cmp_gt hnlt (hcells other (mem_of_getElem? hother))
        have hne : cache.nodes.getLast? ≠ some other := by
          rw [hlast]
          rintro heq
          obtain rfl := some.inj heq
          have hself : cmp last.value last.value = .eq := Std.ReflCmp.compare_self
          rw [Sorted.lt h.sorted hdend hd hother] at hself
          cases hself
        obtain ⟨node, hnode, hnode', hnlt'⟩ :=
          hfits hfull other (h.live _ (mem_of_getElem? hother)) hgt hne
        obtain ⟨i, hi⟩ := mem_iff_getElem?.mp (h.perm.mem_iff.mpr hnode)
        have hilt := (List.getElem?_eq_some_iff.mp hi).1
        by_cases hiend : i < cache.slist.length - 1
        · exact hnlt' (hall i hiend node hi)
        · obtain rfl : i = cache.slist.length - 1 := by omega
          exact hnode' (some.inj (hi.symm.trans hother)))
    rw [hlen, hfull] at hslist
    rw [if_pos hfull, if_pos hfull, hlast]
    dsimp only
    rw [hfound]
    dsimp only [getD_some]
    rw [hslist]
    refine ⟨_, rfl, ⟨hpos, ?_, ?_, hsorted⟩, rfl, rfl⟩
    · simp only [length_cons, length_dropLast]
      omega
    · refine hperm.trans (.cons _ ?_)
      have hall : (last :: cache.slist.eraseIdx d).Perm (last :: cache.nodes.dropLast) := by
        have herase := getElem_cons_eraseIdx_perm hdlt
        rw [(List.getElem?_eq_some_iff.mp hd).2] at herase
        refine (herase.trans h.perm).trans ?_
        rw [hsplit, dropLast_concat]
        exact perm_append_singleton _ _
      exact hall.cons_inv
  · have hlt : cache.slist.length < cache.capacity := by
      have := h.length_le
      omega
    obtain ⟨slist', hslist, hperm, hsorted⟩ :=
      insertSlist_add ⟨cache.address, value⟩ h.live h.sorted cache.capacity hlt hcells
    rw [hlen] at hslist
    rw [if_neg hfull, if_neg hfull, hslist]
    refine ⟨_, rfl, ⟨hpos, ?_, hperm.trans (.cons _ h.perm), hsorted⟩, rfl, rfl⟩
    simp only [length_cons]
    omega

end LruCache

end ZenohPico.Collections
