import Mathlib.Data.Finset.Card
import Mathlib.Data.Finset.Max
import ZenohPico.Foundations.LinkedSlots

/-!
The linked lists of `src/collections/list.c` in memory.

A node holds a value and the link to the next one, and it can be used from its allocation until it
is freed: a function that uses another one has no result here. The two kinds of lists, of pointers
to values and of the values themselves, have the same nodes; the second one copies a value into its
node. An allocation may find no memory.
-/

open List Option

namespace ZenohPico.Collections

open Foundations

variable {α : Type}

/-- Which of the allocations find memory, and an unused place for a node -/
structure Allocator where
  memory : ℕ → Bool
  place : Finset ℕ → ℕ
  fresh : ∀ used, place used ∉ used

/-- The places are behind the used ones. -/
def Allocator.behind (memory : ℕ → Bool) : Allocator where
  memory := memory
  place used := used.max.unbotD 0 + 1
  fresh used hmem := by
    obtain ⟨n, hmax⟩ := Finset.max_of_mem hmem
    have hle := Finset.le_max_of_eq hmem hmax
    rw [hmax, WithBot.unbotD_coe] at hle
    exact absurd hle (Nat.not_succ_le_self n)

/-- The nodes in memory, and how many allocations there were -/
structure NodeHeap (α : Type) where
  live : Finset ℕ
  val : ℕ → α
  next : ℕ → Option ℕ
  mallocs : ℕ

namespace NodeHeap

/-! ### Nodes -/

variable (h : NodeHeap α)

/-- The value of a node and its link -/
def node? (i : ℕ) : Option (α × Option ℕ) := if i ∈ h.live then some (h.val i, h.next i) else none

def setNext (i : ℕ) (link : Option ℕ) : Option (NodeHeap α) :=
  if i ∈ h.live then some { h with next := Function.update h.next i link } else none

/-- `z_free` of a node -/
def free (i : ℕ) : Option (NodeHeap α) :=
  if i ∈ h.live then some { h with live := h.live.erase i } else none

/-- An allocation for something else than a node -/
def malloc (a : Allocator) : Bool × NodeHeap α :=
  (a.memory h.mallocs, { h with mallocs := h.mallocs + 1 })

/-- `_z_list_new` and `_z_slist_new` -/
def listNew (a : Allocator) (x : α) : Option ℕ × NodeHeap α :=
  let i := a.place h.live
  if a.memory h.mallocs then
    (some i,
      ⟨insert i h.live, Function.update h.val i x, Function.update h.next i none, h.mallocs + 1⟩)
  else (none, { h with mallocs := h.mallocs + 1 })

/-! ### The source's functions on lists -/

/-- `_z_list_push`, and `_z_slist_push` of a copied value -/
def listPush (a : Allocator) (xs : Option ℕ) (x : α) : Option (Option ℕ × NodeHeap α) :=
  match h.listNew a x with
  | (none, h) => some (xs, h)
  | (some i, h) => (h.setNext i xs).map fun h ↦ (some i, h)

/-- `_z_list_push_after` -/
def listPushAfter (a : Allocator) (xs : Option ℕ) (x : α) : Option (Option ℕ × NodeHeap α) :=
  match h.listNew a x with
  | (none, h) => some (none, h)
  | (some i, h) =>
    match xs with
    | none => some (some i, h)
    | some p => do
      let (_, rest) ← h.node? p
      let h ← h.setNext i rest
      let h ← h.setNext p (some i)
      return (some p, h)

/-- The walk to the last node -/
def lastNode : ℕ → ℕ → Option ℕ
  | 0, _ => none
  | fuel + 1, i => do
    match ← h.node? i with
    | (_, none) => return i
    | (_, some j) => lastNode fuel j

/-- `_z_list_push_back`, and `_z_slist_push_back` of a copied value -/
def listPushBack (a : Allocator) (xs : Option ℕ) (x : α) : Option (Option ℕ × NodeHeap α) :=
  match xs with
  | none => some (h.listNew a x)
  | some i => do
    let last ← h.lastNode (h.live.card + 1) i
    let (node, h) := h.listNew a x
    let h ← h.setNext last node
    return (some i, h)

/-- `_z_list_drop_element`, with the value that is given to the function that frees it -/
def listDropElement (list prev : Option ℕ) : Option (Option ℕ × NodeHeap α × Option α) :=
  match prev with
  | none => do
    let dropped ← list
    let (x, rest) ← h.node? dropped
    let h ← h.free dropped
    return (rest, h, some x)
  | some p => do
    match ← h.node? p with
    | (_, none) => return (list, h, none)
    | (_, some dropped) =>
      let (x, rest) ← h.node? dropped
      let h ← h.setNext p rest
      let h ← h.free dropped
      return (list, h, some x)

/-- The loop of `_z_list_clone` and of `_z_slist_clone`, which put the clone of a value into the new
list by `push` -/
def cloneLoop (push : NodeHeap α → Option ℕ → α → Option (Option ℕ × NodeHeap α)) (dF : α → α) :
    ℕ → Option ℕ → Option ℕ → NodeHeap α → Option (Option ℕ × NodeHeap α)
  | 0, _, _, _ => none
  | _ + 1, none, new, h => some (new, h)
  | fuel + 1, some curr, new, h => do
    let (x, next) ← h.node? curr
    let (new, h) ← push h new (dF x)
    cloneLoop push dF fuel next new h

/-- `_z_list_clone` -/
def listClone (a : Allocator) (dF : α → α) (xs : Option ℕ) : Option (Option ℕ × NodeHeap α) :=
  cloneLoop (fun h ↦ h.listPushBack a) dF (h.live.card + 1) xs none h

/-- `_z_slist_clone`, which puts every clone in front -/
def slistClone (a : Allocator) (dF : α → α) (xs : Option ℕ) : Option (Option ℕ × NodeHeap α) :=
  cloneLoop (fun h ↦ h.listPush a) dF (h.live.card + 1) xs none h

/-! ### Lists in memory -/

/-- The list that begins at `head` has these nodes, and they hold these values. -/
structure IsList (h : NodeHeap α) (head : Option ℕ) (l : List ℕ) (xs : List α) : Prop where
  chain : Chain h.next head l
  nodup : l.Nodup
  live : ∀ i ∈ l, i ∈ h.live
  vals : l.map h.val = xs

/-- From one state of the memory to a later one the nodes `l` became the nodes `l'`, and no other
node changed. -/
structure Becomes (h h' : NodeHeap α) (l l' : List ℕ) : Prop where
  live : ∀ i ∈ h.live, i ∉ l → i ∈ h'.live
  val : ∀ i ∈ h.live, i ∉ l → h'.val i = h.val i
  next : ∀ i ∈ h.live, i ∉ l → h'.next i = h.next i
  fresh : ∀ i ∈ l', i ∈ l ∨ i ∉ h.live

variable {h} {h' h'' : NodeHeap α} {head : Option ℕ} {l l' l'' m x y : List ℕ} {xs ys : List α}
  {i p : ℕ} {v : α}

theorem isList_nil : h.IsList none [] [] := ⟨rfl, .nil, fun _ hi ↦ absurd hi not_mem_nil, rfl⟩

namespace Becomes

theorem refl (h : NodeHeap α) (l : List ℕ) : h.Becomes h l l :=
  ⟨fun _ hi _ ↦ hi, fun _ _ _ ↦ rfl, fun _ _ _ ↦ rfl, fun _ hi ↦ .inl hi⟩

theorem not_mem (hb : h.Becomes h' l l') (hi : i ∈ h.live) (hl : i ∉ l) : i ∉ l' := fun hmem ↦
  (hb.fresh i hmem).elim hl fun hdead ↦ hdead hi

theorem trans (hb : h.Becomes h' l l') (hb' : h'.Becomes h'' l' l'') : h.Becomes h'' l l'' where
  live i hi hl := hb'.live i (hb.live i hi hl) (hb.not_mem hi hl)
  val i hi hl := (hb'.val i (hb.live i hi hl) (hb.not_mem hi hl)).trans (hb.val i hi hl)
  next i hi hl := (hb'.next i (hb.live i hi hl) (hb.not_mem hi hl)).trans (hb.next i hi hl)
  fresh i hi := by
    by_cases hl : i ∈ l
    · exact .inl hl
    · refine .inr fun hlive ↦ ?_
      exact hb'.not_mem (hb.live i hlive hl) (hb.not_mem hlive hl) hi

/-- More nodes that stay as they are -/
theorem mono (hb : h.Becomes h' l l') (hl : ∀ i ∈ l, i ∈ m) (hl' : ∀ i ∈ x, i ∈ l' ∨ i ∈ m) :
    h.Becomes h' m x where
  live i hi hm := hb.live i hi (mt (hl i) hm)
  val i hi hm := hb.val i hi (mt (hl i) hm)
  next i hi hm := hb.next i hi (mt (hl i) hm)
  fresh i hi := (hl' i hi).elim (fun hmem ↦ (hb.fresh i hmem).imp_left (hl i)) .inl

/-- A list of other nodes is as it was. -/
theorem isList (hb : h.Becomes h' l l') (hm : h.IsList head m ys) (hdisj : ∀ i ∈ m, i ∉ l) :
    h'.IsList head m ys where
  chain := hm.chain.congr fun i hi ↦ hb.next i (hm.live i hi) (hdisj i hi)
  nodup := hm.nodup
  live i hi := hb.live i (hm.live i hi) (hdisj i hi)
  vals := by
    rw [← hm.vals]
    exact map_congr_left fun i hi ↦ hb.val i (hm.live i hi) (hdisj i hi)

/-- A list of other nodes has none of those that came. -/
theorem disjoint (hb : h.Becomes h' l l') (hm : ∀ i ∈ m, i ∈ h.live) (hdisj : ∀ i ∈ m, i ∉ l) :
    ∀ i ∈ m, i ∉ l' := fun i hi ↦ hb.not_mem (hm i hi) (hdisj i hi)

end Becomes

/-- A list in memory has one sequence of values. -/
theorem IsList.unique (hl : h.IsList head l xs) (hy : h.IsList head y ys) : xs = ys := by
  rw [← hl.vals, ← hy.vals, hl.chain.unique hy.chain]

theorem IsList.isSome_iff (hl : h.IsList head l xs) : head.isSome = true ↔ xs ≠ [] := by
  rw [← hl.vals, hl.chain.head_eq, isSome_head?]
  exact (not_congr map_eq_nil_iff).symm

theorem IsList.length_le (hl : h.IsList head l xs) : l.length ≤ h.live.card := by
  rw [← toFinset_card_of_nodup hl.nodup]
  exact Finset.card_le_card fun i hi ↦ hl.live i (mem_toFinset.mp hi)

theorem node?_of_live (hi : i ∈ h.live) : h.node? i = some (h.val i, h.next i) := if_pos hi

/-- What goes on with a node that can be used -/
theorem node?_bind {β : Type} (hi : i ∈ h.live) (f : α × Option ℕ → Option β) :
    (h.node? i >>= f) = f (h.val i, h.next i) := by
  rw [node?_of_live hi]
  rfl

/-- The memory with one link changed -/
def relinked (h : NodeHeap α) (i : ℕ) (link : Option ℕ) : NodeHeap α :=
  { h with next := Function.update h.next i link }

/-- The memory without a node -/
def without (h : NodeHeap α) (i : ℕ) : NodeHeap α := { h with live := h.live.erase i }

theorem setNext_of_live (hi : i ∈ h.live) (link : Option ℕ) :
    h.setNext i link = some (h.relinked i link) := if_pos hi

theorem free_of_live (hi : i ∈ h.live) : h.free i = some (h.without i) := if_pos hi

theorem becomes_relinked (h : NodeHeap α) (link : Option ℕ) (hp : p ∈ l) :
    h.Becomes (h.relinked p link) l l where
  live _ hi _ := hi
  val _ _ _ := rfl
  next _ _ hl := Function.update_of_ne (ne_of_mem_of_not_mem hp hl).symm _ _
  fresh _ hi := .inl hi

theorem becomes_without (h : NodeHeap α) (hp : p ∈ l) (hl' : ∀ i ∈ l', i ∈ l) :
    h.Becomes (h.without p) l l' where
  live _ hi hl := Finset.mem_erase.mpr ⟨(ne_of_mem_of_not_mem hp hl).symm, hi⟩
  val _ _ _ := rfl
  next _ _ _ := rfl
  fresh i hi := .inl (hl' i hi)

/-- A node that is no longer in the list goes. -/
theorem Becomes.without (hb : h.Becomes h' (x ++ p :: y) l') :
    h.Becomes (h'.without p) (x ++ p :: y) l' where
  live i hi hl := Finset.mem_erase.mpr
    ⟨(ne_of_mem_of_not_mem (mem_append_right _ mem_cons_self) hl).symm, hb.live i hi hl⟩
  val := hb.val
  next := hb.next
  fresh := hb.fresh

theorem IsList.without (hl : h.IsList head l xs) (hp : p ∉ l) : (h.without p).IsList head l xs where
  chain := hl.chain
  nodup := hl.nodup
  live i hi := Finset.mem_erase.mpr ⟨ne_of_mem_of_not_mem hi hp, hl.live i hi⟩
  vals := hl.vals

variable {us : List α}

/-- A node of a list is given another rest. -/
theorem IsList.relink {link : Option ℕ} {z : List ℕ} (hl : h.IsList head (x ++ p :: z) us)
    (hy : h.IsList link y ys) (hdisj : ∀ i ∈ y, i ∉ x ++ [p]) :
    (h.relinked p link).IsList head (x ++ p :: y) ((x ++ [p]).map h.val ++ ys) := by
  have hnodup : (x ++ [p]).Nodup := by
    have hall := hl.nodup
    rw [append_cons] at hall
    exact hall.of_append_left
  have hsplit : x ++ p :: y = (x ++ [p]) ++ y := append_cons ..
  refine ⟨hl.chain.relink hy.chain ?_ ?_, ?_, ?_, ?_⟩
  · exact fun hmem ↦ (nodup_append.mp hnodup).2.2 p hmem p mem_cons_self rfl
  · exact fun hmem ↦ hdisj p hmem (mem_append_right _ mem_cons_self)
  · rw [hsplit]
    exact nodup_append.mpr ⟨hnodup, hy.nodup, fun i hi j hj heq ↦ hdisj j hj (heq ▸ hi)⟩
  · intro i hi
    rw [hsplit, mem_append] at hi
    rcases hi with hi | hi
    · refine hl.live i ?_
      rw [append_cons]
      exact mem_append_left _ hi
    · exact hy.live i hi
  · rw [hsplit, map_append, ← hy.vals]
    rfl

theorem IsList.exists_head (hl : h.IsList head (x ++ [p]) xs) : ∃ i, head = some i := by
  rw [hl.chain.head_eq]
  cases x with
  | nil => exact ⟨p, rfl⟩
  | cons i x => exact ⟨i, rfl⟩

/-- What follows a node of a list -/
theorem IsList.rest (hl : h.IsList head (x ++ p :: y) us) :
    h.IsList (h.next p) y (y.map h.val) where
  chain := hl.chain.rest
  nodup := (nodup_cons.mp hl.nodup.of_append_right).2
  live i hi := hl.live i (mem_append_right _ (mem_cons_of_mem _ hi))
  vals := rfl

theorem IsList.next_eq (hl : h.IsList head (x ++ p :: y) us) :
    h.next p = y.head? := hl.chain.next_eq

theorem IsList.not_mem_before (hl : h.IsList head (x ++ p :: y) us) : ∀ i ∈ y, i ∉ x ++ [p] := by
  intro i hi hmem
  have hnodup := hl.nodup
  rw [append_cons] at hnodup
  exact (nodup_append.mp hnodup).2.2 i hmem i hi rfl

/-! ### Allocations -/

variable {a : Allocator}

/-- The memory with a new node, which is not in any list yet -/
def withNode (h : NodeHeap α) (a : Allocator) (v : α) (link : Option ℕ) : NodeHeap α :=
  ⟨insert (a.place h.live) h.live, Function.update h.val (a.place h.live) v,
    Function.update h.next (a.place h.live) link, h.mallocs + 1⟩

/-- The memory after an allocation that found none -/
def counted (h : NodeHeap α) : NodeHeap α := { h with mallocs := h.mallocs + 1 }

theorem listNew_of_memory (hmem : a.memory h.mallocs = true) (v : α) :
    h.listNew a v = (some (a.place h.live), h.withNode a v none) := if_pos hmem

theorem listNew_of_none (hmem : a.memory h.mallocs = false) (v : α) :
    h.listNew a v = (none, h.counted) := if_neg (by rw [hmem]; exact Bool.false_ne_true)

theorem becomes_counted (h : NodeHeap α) (l : List ℕ) : h.Becomes h.counted l l :=
  ⟨fun _ hi _ ↦ hi, fun _ _ _ ↦ rfl, fun _ _ _ ↦ rfl, fun _ hi ↦ .inl hi⟩

theorem IsList.counted (hl : h.IsList head l xs) : h.counted.IsList head l xs :=
  ⟨hl.chain, hl.nodup, hl.live, hl.vals⟩

theorem becomes_withNode (h : NodeHeap α) (a : Allocator) (v : α) (link : Option ℕ) :
    h.Becomes (h.withNode a v link) [] [a.place h.live] where
  live _ hi _ := Finset.mem_insert_of_mem hi
  val _ hi _ := Function.update_of_ne (ne_of_mem_of_not_mem hi (a.fresh _)) _ _
  next _ hi _ := Function.update_of_ne (ne_of_mem_of_not_mem hi (a.fresh _)) _ _
  fresh _ hi := .inr (mem_singleton.mp hi ▸ a.fresh _)

/-- The new node in front of a list -/
theorem IsList.withNode (hl : h.IsList head l xs) (a : Allocator) (v : α) :
    (h.withNode a v head).IsList (some (a.place h.live)) (a.place h.live :: l) (v :: xs) := by
  have hfresh : a.place h.live ∉ l := fun hmem ↦ a.fresh _ (hl.live _ hmem)
  have hrest := (becomes_withNode h a v head).isList hl fun _ _ ↦ not_mem_nil
  refine ⟨hl.chain.cons hfresh, nodup_cons.mpr ⟨hfresh, hl.nodup⟩, ?_, ?_⟩
  · rintro j hj
    rcases mem_cons.mp hj with rfl | hj
    · exact Finset.mem_insert_self ..
    · exact hrest.live j hj
  · rw [map_cons, hrest.vals]
    congr 1
    exact Function.update_self ..

/-! ### What the functions do with a list -/

section Functions

variable {c : ℕ}

theorem withNode_relinked (a : Allocator) (v : α) (link : Option ℕ) :
    (h.withNode a v none).relinked (a.place h.live) link = h.withNode a v link := by
  rw [relinked, withNode, withNode]
  dsimp only
  rw [Function.update_idem]

theorem listPush_of_memory (hmem : a.memory h.mallocs = true) (head : Option ℕ) (v : α) :
    h.listPush a head v = some (some (a.place h.live), h.withNode a v head) := by
  rw [listPush, listNew_of_memory hmem]
  dsimp only
  rw [setNext_of_live (Finset.mem_insert_self ..), withNode_relinked]
  rfl

theorem listPush_of_none (hmem : a.memory h.mallocs = false) (head : Option ℕ) (v : α) :
    h.listPush a head v = some (head, h.counted) := by
  rw [listPush, listNew_of_none hmem]

theorem lastNode_eq {fuel : ℕ} (hchain : Chain h.next (some i) l) (hlive : ∀ j ∈ l, j ∈ h.live)
    (hfuel : l.length ≤ fuel) : h.lastNode fuel i = l.getLast? := by
  induction l generalizing i fuel with
  | nil => cases hchain
  | cons j l ih =>
    obtain ⟨hij, hrest⟩ := hchain
    obtain rfl := some.inj hij
    obtain ⟨fuel, rfl⟩ := Nat.exists_eq_succ_of_ne_zero (Nat.ne_zero_of_lt hfuel)
    rw [lastNode, node?_of_live (hlive i mem_cons_self)]
    cases l with
    | nil =>
      have hnone : h.next i = none := hrest
      rw [hnone]
      rfl
    | cons k l =>
      have hsome : h.next i = some k := hrest.1
      rw [hsome] at hrest ⊢
      exact ih hrest (fun j hj ↦ hlive j (mem_cons_of_mem _ hj)) (Nat.le_of_succ_le_succ hfuel)

theorem listPushBack_of_none (hl : h.IsList head l xs) (hmem : a.memory h.mallocs = false) (v : α) :
    h.listPushBack a head v = some (head, h.counted) := by
  rcases eq_nil_or_concat' l with rfl | ⟨x, p, rfl⟩
  · obtain rfl : head = none := hl.chain
    rw [listPushBack, listNew_of_none hmem]
  · obtain ⟨i, rfl⟩ := hl.exists_head
    have hnext : h.next p = none := hl.next_eq
    have hp : p ∈ h.live := hl.live p (mem_append_right _ mem_cons_self)
    rw [listPushBack, lastNode_eq hl.chain hl.live (hl.length_le.trans (Nat.le_succ _)),
      List.getLast?_concat, bind_eq_bind, bind_some, listNew_of_none hmem]
    dsimp only
    rw [setNext_of_live (h := h.counted) hp]
    have hsame : h.counted.relinked p none = h.counted := by
      rw [relinked, counted]
      dsimp only
      rw [← hnext, Function.update_eq_self]
    rw [hsame]
    rfl

theorem listPushBack_of_memory (hl : h.IsList head l xs) (hmem : a.memory h.mallocs = true)
    (v : α) : ∃ head' h', h.listPushBack a head v = some (head', h') ∧
      h'.IsList head' (l ++ [a.place h.live]) (xs ++ [v]) ∧
      h.Becomes h' l (l ++ [a.place h.live]) ∧ h'.mallocs = h.mallocs + 1 := by
  have hnode := isList_nil.withNode (h := h) a v
  rcases eq_nil_or_concat' l with rfl | ⟨x, p, rfl⟩
  · obtain rfl : head = none := hl.chain
    obtain rfl : xs = [] := hl.vals.symm
    refine ⟨_, _, ?_, hnode, becomes_withNode h a v none, rfl⟩
    rw [listPushBack, listNew_of_memory hmem]
  · obtain ⟨i, rfl⟩ := hl.exists_head
    have hp : p ∈ h.live := hl.live p (mem_append_right _ mem_cons_self)
    have hbecomes := becomes_withNode h a v none
    have hl' := hbecomes.isList hl fun _ _ ↦ not_mem_nil
    have hfresh : ∀ j ∈ [a.place h.live], j ∉ x ++ [p] := by
      intro j hj hmem'
      rw [mem_singleton.mp hj] at hmem'
      exact a.fresh _ (hl.live _ hmem')
    have hlist := hl'.relink hnode hfresh
    rw [hl'.vals, append_cons] at hlist
    refine ⟨some i, _, ?_, hlist, ?_, rfl⟩
    · rw [listPushBack, lastNode_eq hl.chain hl.live (hl.length_le.trans (Nat.le_succ _)),
        List.getLast?_concat, bind_eq_bind, bind_some, listNew_of_memory hmem]
      dsimp only
      rw [setNext_of_live (Finset.mem_insert_of_mem hp)]
      rfl
    · have hmore : h.Becomes (h.withNode a v none) (x ++ [p]) (x ++ [p] ++ [a.place h.live]) :=
        hbecomes.mono (fun _ hi ↦ absurd hi not_mem_nil)
          fun _ hi ↦ (mem_append.mp hi).symm
      refine hmore.trans (becomes_relinked _ _ ?_)
      exact mem_append_left _ (mem_append_right _ mem_cons_self)

/-- The new node behind a node of a list -/
theorem listPushAfter_of_memory (hl : h.IsList head (x ++ p :: y) us)
    (hmem : a.memory h.mallocs = true) (v : α) :
    ∃ h', h.listPushAfter a (some p) v = some (some p, h') ∧
      h'.IsList head (x ++ p :: a.place h.live :: y) ((x ++ [p]).map h.val ++ v :: y.map h.val) ∧
      h.Becomes h' (x ++ p :: y) (x ++ p :: a.place h.live :: y) ∧ h'.mallocs = h.mallocs + 1 := by
  have hp : p ∈ h.live := hl.live p (mem_append_right _ mem_cons_self)
  have hne : p ≠ a.place h.live := ne_of_mem_of_not_mem hp (a.fresh _)
  have hbecomes := becomes_withNode h a v (h.next p)
  have hl' := hbecomes.isList hl fun _ _ ↦ not_mem_nil
  have hnode := hl.rest.withNode a v
  have hdisj : ∀ j ∈ a.place h.live :: y, j ∉ x ++ [p] := by
    intro j hj
    rcases mem_cons.mp hj with rfl | hj
    · intro hmem'
      refine a.fresh _ (hl.live _ ?_)
      rw [append_cons]
      exact mem_append_left _ hmem'
    · exact hl.not_mem_before j hj
  have hlist := hl'.relink hnode hdisj
  have hvals : (x ++ [p]).map (h.withNode a v (h.next p)).val = (x ++ [p]).map h.val := by
    refine map_congr_left fun j hj ↦ hbecomes.val j (hl.live j ?_) not_mem_nil
    rw [append_cons]
    exact mem_append_left _ hj
  rw [hvals] at hlist
  refine ⟨_, ?_, hlist, ?_, rfl⟩
  · have hsame : (h.withNode a v none).next p = h.next p := Function.update_of_ne hne _ _
    unfold listPushAfter
    rw [listNew_of_memory hmem]
    dsimp only
    rw [node?_bind (h := h.withNode a v none) (Finset.mem_insert_of_mem hp), hsame]
    dsimp only
    rw [setNext_of_live (h := h.withNode a v none) (Finset.mem_insert_self ..),
      withNode_relinked, bind_eq_bind, bind_some,
      setNext_of_live (h := h.withNode a v (h.next p)) (Finset.mem_insert_of_mem hp)]
    rfl
  · have hmore : h.Becomes (h.withNode a v (h.next p)) (x ++ p :: y)
        (x ++ p :: a.place h.live :: y) :=
      hbecomes.mono (fun _ hi ↦ absurd hi not_mem_nil) fun i hi ↦ by
        rw [mem_append, mem_cons, mem_cons] at hi
        rw [mem_singleton, mem_append, mem_cons]
        tauto
    exact hmore.trans (becomes_relinked _ _ (mem_append_right _ mem_cons_self))

theorem listPushAfter_of_none (hmem : a.memory h.mallocs = false) (head : Option ℕ) (v : α) :
    h.listPushAfter a head v = some (none, h.counted) := by
  unfold listPushAfter
  rw [listNew_of_none hmem]

/-- The first node is taken out. -/
theorem listDropElement_head (hl : h.IsList head (c :: y) us) :
    h.listDropElement head none = some (h.next c, h.without c, some (h.val c)) ∧
      (h.without c).IsList (h.next c) y (y.map h.val) ∧ h.Becomes (h.without c) (c :: y) y := by
  obtain rfl : head = some c := hl.chain.1
  have hc : c ∈ h.live := hl.live c mem_cons_self
  refine ⟨?_, ?_, becomes_without h mem_cons_self fun _ hi ↦ mem_cons_of_mem _ hi⟩
  · rw [listDropElement, bind_eq_bind, bind_some, node?_bind hc]
    dsimp only
    rw [free_of_live hc]
    rfl
  · have hrest : h.IsList (h.next c) y (y.map h.val) := IsList.rest (x := []) hl
    exact hrest.without (nodup_cons.mp hl.nodup).1

/-- The link of a node goes past the next one, which is no longer in the list. -/
theorem IsList.unlink (hl : h.IsList head (x ++ p :: c :: y) us) :
    (h.relinked p (h.next c)).IsList head (x ++ p :: y) ((x ++ p :: y).map h.val) ∧
      h.Becomes (h.relinked p (h.next c)) (x ++ p :: c :: y) (x ++ p :: y) ∧ c ∉ x ++ p :: y := by
  have hsplit : x ++ p :: c :: y = (x ++ [p]) ++ c :: y := append_cons ..
  have hnot : c ∉ x ++ p :: y := by
    have hnodup := hl.nodup
    rw [hsplit] at hnodup
    rw [append_cons]
    exact (nodup_middle hnodup).1
  have hrest : h.IsList (h.next c) y (y.map h.val) := by
    rw [hsplit] at hl
    exact hl.rest
  have hlist := hl.relink hrest fun i hi ↦ hl.not_mem_before i (mem_cons_of_mem _ hi)
  rw [← map_append, append_assoc, singleton_append] at hlist
  refine ⟨hlist, ?_, hnot⟩
  refine (becomes_relinked h _ (mem_append_right x mem_cons_self)).mono
    (fun _ hi ↦ hi) fun i hi ↦ .inr ?_
  rw [mem_append, mem_cons] at hi ⊢
  exact hi.imp_right (Or.imp_right (mem_cons_of_mem _))

/-- The node behind another one is taken out. -/
theorem listDropElement_behind (hl : h.IsList head (x ++ p :: c :: y) us) :
    ∃ h', h.listDropElement head (some p) = some (head, h', some (h.val c)) ∧
      h'.IsList head (x ++ p :: y) ((x ++ p :: y).map h.val) ∧
      h.Becomes h' (x ++ p :: c :: y) (x ++ p :: y) ∧ h'.mallocs = h.mallocs := by
  have hp : p ∈ h.live := hl.live p (mem_append_right _ mem_cons_self)
  have hnext : h.next p = some c := hl.next_eq
  have hmem : c ∈ x ++ p :: c :: y :=
    mem_append_right _ (mem_cons_of_mem _ mem_cons_self)
  have hc : c ∈ h.live := hl.live c hmem
  obtain ⟨hlist, hbecomes, hnot⟩ := hl.unlink
  refine ⟨_, ?_, hlist.without hnot, ?_, rfl⟩
  · rw [listDropElement, node?_bind hp, hnext]
    dsimp only
    rw [node?_bind hc]
    dsimp only
    rw [setNext_of_live hp, bind_eq_bind, bind_some, free_of_live (h := h.relinked p (h.next c)) hc]
    rfl
  · rw [append_cons] at hbecomes ⊢
    exact hbecomes.without

/-- A node is dropped, wherever it is in the list. -/
theorem listDropElement_spec (hl : h.IsList head (x ++ c :: y) us) :
    ∃ head' h', h.listDropElement head x.getLast? = some (head', h', some (h.val c)) ∧
      h'.IsList head' (x ++ y) ((x ++ y).map h.val) ∧ h.Becomes h' (x ++ c :: y) (x ++ y) ∧
      h'.mallocs = h.mallocs := by
  rcases eq_nil_or_concat' x with rfl | ⟨x, q, rfl⟩
  · obtain ⟨hdrop, hlist, hbecomes⟩ := listDropElement_head hl
    exact ⟨_, _, hdrop, hlist, hbecomes, rfl⟩
  · rw [append_assoc, singleton_append] at hl
    obtain ⟨h', hdrop, hlist, hbecomes, hmallocs⟩ := listDropElement_behind hl
    rw [List.getLast?_concat, append_assoc, append_assoc, singleton_append, singleton_append]
    exact ⟨_, h', hdrop, hlist, hbecomes, hmallocs⟩

end Functions

/-! ### Clones -/

/-- The values that get a node, where an allocation is asked for once for each of them -/
def supplied (memory : ℕ → Bool) : ℕ → List α → List α
  | _, [] => []
  | n, x :: xs => if memory n then x :: supplied memory (n + 1) xs else supplied memory (n + 1) xs

theorem supplied_sublist (memory : ℕ → Bool) (n : ℕ) (xs : List α) :
    (supplied memory n xs).Sublist xs := by
  induction xs generalizing n with
  | nil => exact .slnil
  | cons x xs ih =>
    rw [supplied]
    split_ifs
    · exact (ih (n + 1)).cons_cons x
    · exact (ih (n + 1)).cons x

variable {memory : ℕ → Bool}

/-- All values get a node just where all allocations find memory. -/
theorem length_supplied_eq_iff {n : ℕ} {xs : List α} :
    (supplied memory n xs).length = xs.length ↔ ∀ k < xs.length, memory (n + k) = true := by
  induction xs generalizing n with
  | nil => exact iff_of_true rfl fun k hk ↦ absurd hk (Nat.not_lt_zero k)
  | cons x xs ih =>
    rw [supplied]
    split_ifs with hmem
    · rw [length_cons, length_cons, Nat.add_right_cancel_iff, ih]
      constructor
      · intro hall k hk
        cases k with
        | zero => exact hmem
        | succ k =>
          rw [Nat.add_comm k, ← Nat.add_assoc]
          exact hall k (Nat.lt_of_succ_lt_succ hk)
      · intro hall k hk
        rw [Nat.add_assoc, Nat.add_comm 1]
        exact hall (k + 1) (Nat.succ_lt_succ hk)
    · refine iff_of_false (fun heq ↦ ?_) fun hall ↦ hmem (hall 0 (Nat.succ_pos _))
      have hle := (supplied_sublist memory (n + 1) xs).length_le
      rw [length_cons] at heq
      omega

theorem supplied_eq_self {n : ℕ} {xs : List α} (hall : ∀ k < xs.length, memory (n + k) = true) :
    supplied memory n xs = xs := by
  induction xs generalizing n with
  | nil => rfl
  | cons x xs ih =>
    have hmem : memory n = true := hall 0 (Nat.succ_pos _)
    rw [supplied, if_pos hmem, ih fun k hk ↦ ?_]
    rw [Nat.add_assoc, Nat.add_comm 1]
    exact hall (k + 1) (Nat.succ_lt_succ hk)

theorem supplied_eq_nil {n : ℕ} {xs : List α} (hnone : ∀ k < xs.length, memory (n + k) = false) :
    supplied memory n xs = [] := by
  induction xs generalizing n with
  | nil => rfl
  | cons x xs ih =>
    have hmem : memory n = false := hnone 0 (Nat.succ_pos _)
    rw [supplied, hmem, if_neg Bool.false_ne_true, ih fun k hk ↦ ?_]
    rw [Nat.add_assoc, Nat.add_comm 1]
    exact hnone (k + 1) (Nat.succ_lt_succ hk)

/-- `push` puts a value where `put` says, if it gets a node for it. -/
def Pushes (a : Allocator) (push : NodeHeap α → Option ℕ → α → Option (Option ℕ × NodeHeap α))
    (put : List α → α → List α) : Prop :=
  ∀ (h : NodeHeap α) (head : Option ℕ) (l : List ℕ) (xs : List α) (v : α), h.IsList head l xs →
    ∃ head' h' l', push h head v = some (head', h') ∧
      h'.IsList head' l' (if a.memory h.mallocs then put xs v else xs) ∧
      h.Becomes h' l l' ∧ h'.mallocs = h.mallocs + 1

theorem listPush_pushes (a : Allocator) :
    Pushes a (fun h ↦ h.listPush a) fun (xs : List α) v ↦ v :: xs := by
  intro h head l xs v hl
  cases hmem : a.memory h.mallocs with
  | true =>
    refine ⟨_, _, _, listPush_of_memory hmem head v, hl.withNode a v, ?_, rfl⟩
    refine (becomes_withNode h a v head).mono (fun _ hi ↦ absurd hi not_mem_nil) fun i hi ↦ ?_
    exact (mem_cons.mp hi).imp_left mem_singleton.mpr
  | false =>
    exact ⟨_, _, _, listPush_of_none hmem head v, hl.counted, becomes_counted h l, rfl⟩

theorem listPushBack_pushes (a : Allocator) :
    Pushes a (fun h ↦ h.listPushBack a) fun (xs : List α) v ↦ xs ++ [v] := by
  intro h head l xs v hl
  cases hmem : a.memory h.mallocs with
  | true =>
    obtain ⟨head', h', hpush, hlist, hbecomes, hmallocs⟩ := listPushBack_of_memory hl hmem v
    exact ⟨head', h', _, hpush, hlist, hbecomes, hmallocs⟩
  | false =>
    exact ⟨_, _, _, listPushBack_of_none hl hmem v, hl.counted, becomes_counted h l, rfl⟩

/-- The clones of the values that get a node are put into the new list one after the other, and the
list that is cloned stays as it is. -/
theorem cloneLoop_spec {a : Allocator}
    {push : NodeHeap α → Option ℕ → α → Option (Option ℕ × NodeHeap α)} {put : List α → α → List α}
    (hpush : Pushes a push put) (dF : α → α) {fuel : ℕ} {curr new : Option ℕ} {y n : List ℕ}
    {ns : List α} (hy : h.IsList curr y us) (hn : h.IsList new n ns) (hdisj : ∀ i ∈ y, i ∉ n)
    (hfuel : y.length < fuel) : ∃ new' h' n', cloneLoop push dF fuel curr new h = some (new', h') ∧
      h'.IsList new' n' (((supplied a.memory h.mallocs us).map dF).foldl put ns) ∧
      h.Becomes h' n n' ∧ h'.mallocs = h.mallocs + us.length := by
  induction y generalizing h curr new n us ns fuel with
  | nil =>
    obtain rfl : curr = none := hy.chain
    obtain rfl : us = [] := hy.vals.symm
    obtain ⟨fuel, rfl⟩ := Nat.exists_eq_succ_of_ne_zero (Nat.ne_zero_of_lt hfuel)
    exact ⟨new, h, n, rfl, hn, .refl h n, rfl⟩
  | cons c y ih =>
    obtain ⟨fuel, rfl⟩ := Nat.exists_eq_succ_of_ne_zero (Nat.ne_zero_of_lt hfuel)
    obtain rfl : curr = some c := hy.chain.1
    obtain rfl : us = h.val c :: y.map h.val := hy.vals.symm
    have hrest : h.IsList (h.next c) y (y.map h.val) := IsList.rest (x := []) hy
    obtain ⟨new₁, h₁, n₁, hput, hn₁, hbecomes, hmallocs⟩ := hpush h new n ns (dF (h.val c)) hn
    have hdisjy : ∀ i ∈ y, i ∉ n := fun i hi ↦ hdisj i (mem_cons_of_mem _ hi)
    obtain ⟨new₂, h₂, n₂, hloop, hn₂, hbecomes₂, hmallocs₂⟩ :=
      ih (hbecomes.isList hrest hdisjy) hn₁ (hbecomes.disjoint hrest.live hdisjy)
        (Nat.lt_of_succ_lt_succ hfuel)
    refine ⟨new₂, h₂, n₂, ?_, ?_, hbecomes.trans hbecomes₂, ?_⟩
    · rw [cloneLoop, node?_bind (hy.live c mem_cons_self)]
      dsimp only
      rw [hput, bind_eq_bind, bind_some]
      exact hloop
    · rw [hmallocs] at hn₂
      rw [supplied]
      split_ifs at hn₂ ⊢ with hmem
      · exact hn₂
      · exact hn₂
    · rw [hmallocs₂, hmallocs, length_cons, Nat.add_assoc, Nat.add_comm 1]

theorem listClone_spec {a : Allocator} (dF : α → α) (hl : h.IsList head l xs) :
    ∃ new h' n, h.listClone a dF head = some (new, h') ∧
      h'.IsList new n ((supplied a.memory h.mallocs xs).map dF) ∧ h.Becomes h' [] n ∧
      h'.mallocs = h.mallocs + xs.length := by
  obtain ⟨new, h', n, hclone, hn, hbecomes, hmallocs⟩ :=
    cloneLoop_spec (listPushBack_pushes a) dF hl isList_nil (fun _ _ ↦ not_mem_nil)
      (Nat.lt_succ_of_le hl.length_le)
  refine ⟨new, h', n, hclone, ?_, hbecomes, hmallocs⟩
  have hall : ∀ us : List α, us.foldl (fun xs v ↦ xs ++ [v]) [] = us := by
    intro us
    have hflat : us.foldl (fun xs v ↦ xs ++ [v]) [] = [] ++ (us.map fun v ↦ [v]).flatten :=
      foldl_append_eq_append ..
    rw [hflat, nil_append, ← flatMap_def, flatMap_singleton']
  rwa [hall] at hn

/-- The clone of the second kind of list has its values in the opposite order. -/
theorem slistClone_spec {a : Allocator} (dF : α → α) (hl : h.IsList head l xs) :
    ∃ new h' n, h.slistClone a dF head = some (new, h') ∧
      h'.IsList new n ((supplied a.memory h.mallocs xs).map dF).reverse ∧ h.Becomes h' [] n ∧
      h'.mallocs = h.mallocs + xs.length := by
  obtain ⟨new, h', n, hclone, hn, hbecomes, hmallocs⟩ :=
    cloneLoop_spec (listPush_pushes a) dF hl isList_nil (fun _ _ ↦ not_mem_nil)
      (Nat.lt_succ_of_le hl.length_le)
  refine ⟨new, h', n, hclone, ?_, hbecomes, hmallocs⟩
  rwa [foldl_flip_cons_eq_append', append_nil] at hn

end NodeHeap

end ZenohPico.Collections
