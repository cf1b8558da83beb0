import ZenohPico.Collections.NodeHeap

/-!
The filters of the linked lists of `src/collections/list.c`, and what the operations on a list leave
of it.

A filter walks along the list with the node before the current one and changes a link where a value
matches. The laws say which values a list has after an operation; no other node changes. The clone
of the second kind of list does not keep to them, since it has its values in the opposite order.
-/

open List Option

namespace ZenohPico.Collections

open Foundations

variable {α : Type}

/-! ### What a filter leaves and what it takes -/

section Filters

variable {β : Type*} {p : β → Bool} {onlyFirst : Bool} {x : β} {xs : List β}

/-- What a filter leaves -/
def survivors (p : β → Bool) (onlyFirst : Bool) (xs : List β) : List β :=
  if onlyFirst then xs.eraseP p else xs.filter fun x ↦ !p x

/-- What a filter takes -/
def taken (p : β → Bool) (onlyFirst : Bool) (xs : List β) : List β :=
  if onlyFirst then (xs.find? p).toList else xs.filter p

theorem survivors_cons_of_neg (h : p x = false) :
    survivors p onlyFirst (x :: xs) = x :: survivors p onlyFirst xs := by
  cases onlyFirst with
  | true => exact eraseP_cons_of_neg (by rw [h]; exact Bool.false_ne_true)
  | false => exact filter_cons_of_pos (p := fun x ↦ !p x) (by rw [h]; rfl)

theorem taken_cons_of_neg (h : p x = false) :
    taken p onlyFirst (x :: xs) = taken p onlyFirst xs := by
  have hne : ¬ p x = true := by rw [h]; exact Bool.false_ne_true
  cases onlyFirst with
  | true => exact congrArg Option.toList (List.find?_cons_of_neg hne)
  | false => exact filter_cons_of_neg hne

theorem survivors_cons_of_pos (h : p x = true) :
    survivors p onlyFirst (x :: xs) = if onlyFirst then xs else survivors p onlyFirst xs := by
  cases onlyFirst with
  | true => exact eraseP_cons_of_pos h
  | false =>
    exact filter_cons_of_neg (p := fun x ↦ !p x) (by rw [h]; exact Bool.false_ne_true)

theorem taken_cons_of_pos (h : p x = true) :
    taken p onlyFirst (x :: xs) = x :: if onlyFirst then [] else taken p onlyFirst xs := by
  cases onlyFirst with
  | true => exact congrArg Option.toList (List.find?_cons_of_pos h)
  | false => exact filter_cons_of_pos h

theorem map_survivors {γ : Type*} (f : γ → β) (xs : List γ) :
    (survivors (fun x ↦ p (f x)) onlyFirst xs).map f = survivors p onlyFirst (xs.map f) := by
  induction xs with
  | nil => cases onlyFirst <;> rfl
  | cons x xs ih =>
    rw [map_cons]
    cases hp : p (f x) with
    | true =>
      rw [survivors_cons_of_pos (p := fun x ↦ p (f x)) hp, survivors_cons_of_pos hp]
      split_ifs
      · rfl
      · exact ih
    | false =>
      rw [survivors_cons_of_neg (p := fun x ↦ p (f x)) hp, survivors_cons_of_neg hp, map_cons, ih]

theorem map_taken {γ : Type*} (f : γ → β) (xs : List γ) :
    (taken (fun x ↦ p (f x)) onlyFirst xs).map f = taken p onlyFirst (xs.map f) := by
  induction xs with
  | nil => cases onlyFirst <;> rfl
  | cons x xs ih =>
    rw [map_cons]
    cases hp : p (f x) with
    | true =>
      rw [taken_cons_of_pos (p := fun x ↦ p (f x)) hp, taken_cons_of_pos hp, map_cons]
      split_ifs
      · rfl
      · rw [ih]
    | false => rw [taken_cons_of_neg (p := fun x ↦ p (f x)) hp, taken_cons_of_neg hp, ih]

/-- A filter loses nothing. -/
theorem survivors_append_taken_perm (xs : List β) :
    (survivors p onlyFirst xs ++ taken p onlyFirst xs).Perm xs := by
  induction xs with
  | nil => cases onlyFirst <;> exact .nil
  | cons x xs ih =>
    cases hp : p x with
    | true =>
      rw [survivors_cons_of_pos hp, taken_cons_of_pos hp]
      refine perm_middle.trans (.cons x ?_)
      cases onlyFirst with
      | true => exact .of_eq (append_nil xs)
      | false => exact ih
    | false =>
      rw [survivors_cons_of_neg hp, taken_cons_of_neg hp, cons_append]
      exact .cons x ih

end Filters

namespace NodeHeap

/-! ### The filter that drops -/

/-- How `_z_list_drop_filter` takes a node out: the memory, the list and the node to go on with -/
def listUnlink (h : NodeHeap α) (l previous : Option ℕ) (current : ℕ) :
    Option (NodeHeap α × Option ℕ × Option ℕ) := do
  let (_, next) ← h.node? current
  if some current = l then
    return (h, next, next)
  else if next = none then
    let prev ← previous
    let h ← h.setNext prev none
    return (h, l, next)
  else
    let prev ← previous
    let h ← h.setNext prev next
    return (h, l, next)

/-- How `_z_slist_drop_filter` does it, which reads the link of the node once it is out of the
list -/
def slistUnlink (h : NodeHeap α) (head previous : Option ℕ) (current : ℕ) :
    Option (NodeHeap α × Option ℕ × Option ℕ) := do
  let (_, link) ← h.node? current
  if some current = head then
    let (_, next) ← h.node? current
    return (h, link, next)
  else if link = none then
    let prev ← previous
    let h ← h.setNext prev none
    let (_, next) ← h.node? current
    return (h, head, next)
  else
    let prev ← previous
    let h ← h.setNext prev link
    let (_, next) ← h.node? current
    return (h, head, next)

/-- The loop of `_z_list_drop_filter` and of `_z_slist_drop_filter`: the list that is left, the
memory, and the values that are given to the function that frees them -/
def dropLoop (unlink : NodeHeap α → Option ℕ → Option ℕ → ℕ →
      Option (NodeHeap α × Option ℕ × Option ℕ)) (p : α → Bool) (onlyFirst : Bool) :
    ℕ → Option ℕ → Option ℕ → Option ℕ → NodeHeap α → Option (Option ℕ × NodeHeap α × List α)
  | 0, _, _, _, _ => none
  | _ + 1, l, _, none, h => some (l, h, [])
  | fuel + 1, l, previous, some current, h => do
    let (x, link) ← h.node? current
    if p x then
      let (h, l, next) ← unlink h l previous current
      let h ← h.free current
      if onlyFirst then
        return (l, h, [x])
      else
        let (l, h, dropped) ← dropLoop unlink p onlyFirst fuel l previous next h
        return (l, h, x :: dropped)
    else dropLoop unlink p onlyFirst fuel l (some current) link h

/-- `_z_list_drop_filter` -/
def listDropFilter (h : NodeHeap α) (xs : Option ℕ) (p : α → Bool) (onlyFirst : Bool) :
    Option (Option ℕ × NodeHeap α × List α) :=
  dropLoop listUnlink p onlyFirst (h.live.card + 1) xs xs xs h

/-- `_z_slist_drop_filter` -/
def slistDropFilter (h : NodeHeap α) (head : Option ℕ) (p : α → Bool) (onlyFirst : Bool) :
    Option (Option ℕ × NodeHeap α × List α) :=
  dropLoop slistUnlink p onlyFirst (h.live.card + 1) head head head h

/-! ### The filter that extracts -/

/-- A list that is put together behind a node of the stack: its first node, and its last one, if it
has one -/
structure Tailed where
  first : Option ℕ
  tail : Option ℕ

/-- The link of the last node, or of the one on the stack -/
def setTail (h : NodeHeap α) (t : Tailed) (link : Option ℕ) : Option (NodeHeap α × Tailed) :=
  match t.tail with
  | none => some (h, { t with first := link })
  | some i => (h.setNext i link).map fun h ↦ (h, t)

/-- The loop of `_z_list_extract_filter` and of `_z_slist_extract_filter`, which are the same, from
`self` and `extracted` on -/
def extractLoop (p : α → Bool) (onlyFirst : Bool) :
    ℕ → Tailed → Tailed → Option ℕ → NodeHeap α → Option (Option ℕ × Option ℕ × NodeHeap α)
  | 0, _, _, _, _ => none
  | _ + 1, self, extracted, none, h => some (self.first, extracted.first, h)
  | fuel + 1, self, extracted, some current, h => do
    let (x, next) ← h.node? current
    let h ← h.setNext current none
    if p x then
      let (h, extracted) ← h.setTail extracted (some current)
      if onlyFirst then
        let (h, self) ← h.setTail self next
        return (self.first, extracted.first, h)
      else extractLoop p onlyFirst fuel self ⟨extracted.first, some current⟩ next h
    else
      let (h, self) ← h.setTail self (some current)
      extractLoop p onlyFirst fuel ⟨self.first, some current⟩ extracted next h

/-- `_z_list_extract_filter` and `_z_slist_extract_filter`: the list that is left, the one that is
extracted, and the memory -/
def listExtractFilter (h : NodeHeap α) (head : Option ℕ) (p : α → Bool) (onlyFirst : Bool) :
    Option (Option ℕ × Option ℕ × NodeHeap α) :=
  extractLoop p onlyFirst (h.live.card + 1) ⟨none, none⟩ ⟨none, none⟩ head h

/-! ### What they do -/

variable {h : NodeHeap α} {head link : Option ℕ} {l x y e : List ℕ} {us xs ys : List α} {i c : ℕ}
  {p : α → Bool} {onlyFirst : Bool}

/-- The node is taken out of the list, where the one before it is known if there is one. -/
def Unlinks (unlink : NodeHeap α → Option ℕ → Option ℕ → ℕ →
    Option (NodeHeap α × Option ℕ × Option ℕ)) : Prop :=
  ∀ (h : NodeHeap α) (l previous : Option ℕ) (x : List ℕ) (c : ℕ) (y : List ℕ) (us : List α),
    h.IsList l (x ++ c :: y) us → (x ≠ [] → previous = x.getLast?) →
      ∃ h' l', unlink h l previous c = some (h', l', y.head?) ∧
        h'.IsList l' (x ++ y) ((x ++ y).map h.val) ∧ h.Becomes h' (x ++ c :: y) (x ++ y) ∧
        c ∉ x ++ y ∧ c ∈ h'.live ∧ h'.val = h.val

/-- The first node of a list is not one that is behind another. -/
theorem IsList.head_ne (hl : h.IsList head (x ++ i :: c :: y) us) : some c ≠ head := by
  have hnodup := hl.nodup
  rw [append_cons] at hnodup
  have hnot := (nodup_append.mp hnodup).2.2
  intro heq
  have hhead := heq.trans hl.chain.head_eq
  rw [append_cons] at hhead
  cases x with
  | nil => exact hnot i mem_cons_self c mem_cons_self (some.inj hhead).symm
  | cons b x => exact hnot b mem_cons_self c mem_cons_self (some.inj hhead).symm

variable {unlink : NodeHeap α → Option ℕ → Option ℕ → ℕ → Option (NodeHeap α × Option ℕ × Option ℕ)}

theorem unlinks_of_eqs (hhead : ∀ (h : NodeHeap α) previous c, c ∈ h.live →
      unlink h (some c) previous c = some (h, h.next c, h.next c))
    (hbehind : ∀ (h : NodeHeap α) l q c, c ∈ h.live → q ∈ h.live → c ≠ q → some c ≠ l →
      unlink h l (some q) c = some (h.relinked q (h.next c), l, h.next c)) : Unlinks unlink := by
  intro h l previous x c y us hl hprevious
  have hc : c ∈ h.live := hl.live c (mem_append_right _ mem_cons_self)
  rcases eq_nil_or_concat' x with rfl | ⟨x, q, rfl⟩
  · obtain rfl : l = some c := hl.chain.1
    refine ⟨h, h.next c, ?_, hl.rest, ?_, (nodup_cons.mp hl.nodup).1, hc, rfl⟩
    · rw [hhead h previous c hc, hl.next_eq]
    · exact (Becomes.refl h _).mono (fun _ hi ↦ hi) fun _ hi ↦ .inr (mem_cons_of_mem _ hi)
  · have hprev : previous = some q := by
      rw [hprevious (append_ne_nil_of_right_ne_nil x (cons_ne_nil q [])), List.getLast?_concat]
    have hnext := hl.next_eq
    rw [append_assoc, singleton_append] at hl
    have hq : q ∈ h.live := hl.live q (mem_append_right _ mem_cons_self)
    obtain ⟨hlist, hbecomes, hnot⟩ := hl.unlink
    have hne : c ≠ q := fun heq ↦
      hnot (mem_append_right _ (heq ▸ mem_cons_self))
    rw [append_assoc, append_assoc, singleton_append, singleton_append]
    refine ⟨h.relinked q (h.next c), l, ?_, hlist, hbecomes, hnot, hc, rfl⟩
    rw [hprev, hbehind h l q c hc hq hne hl.head_ne, hnext]

theorem listUnlink_unlinks : Unlinks (α := α) listUnlink := by
  refine unlinks_of_eqs (fun h previous c hc ↦ ?_) fun h l q c hc hq hne hhead ↦ ?_
  · rw [listUnlink, node?_bind hc]
    exact if_pos rfl
  · rw [listUnlink, node?_bind hc]
    dsimp only
    rw [if_neg hhead]
    simp only [bind_eq_bind, bind_some, setNext_of_live hq]
    split_ifs with hlast
    · rw [hlast]
      rfl
    · rfl

theorem slistUnlink_unlinks : Unlinks (α := α) slistUnlink := by
  refine unlinks_of_eqs (fun h previous c hc ↦ ?_) fun h l q c hc hq hne hhead ↦ ?_
  · rw [slistUnlink, node?_bind hc]
    dsimp only
    rw [if_pos rfl, node?_bind hc]
    rfl
  · have hnode : ∀ link, (h.relinked q link).node? c = some (h.val c, h.next c) := by
      intro link
      have hsame : (h.relinked q link).next c = h.next c := Function.update_of_ne hne _ _
      rw [node?_of_live (h := h.relinked q link) hc, hsame]
      rfl
    rw [slistUnlink, node?_bind hc]
    dsimp only
    rw [if_neg hhead]
    simp only [bind_eq_bind, bind_some, setNext_of_live hq, hnode]
    split_ifs with hlast
    · rw [hlast]
      rfl
    · rfl

/-- The walk takes out what matches: the nodes before it are not touched again, and the one before
it is known as soon as one is left there. -/
theorem dropLoop_spec (hunlink : Unlinks unlink) {fuel : ℕ} {previous : Option ℕ}
    (hl : h.IsList head (x ++ y) us) (hprevious : x ≠ [] → previous = x.getLast?)
    (hfuel : y.length < fuel) :
    ∃ head' h', dropLoop unlink p onlyFirst fuel head previous y.head? h =
        some (head', h', (taken (fun i ↦ p (h.val i)) onlyFirst y).map h.val) ∧
      h'.IsList head' (x ++ survivors (fun i ↦ p (h.val i)) onlyFirst y)
        ((x ++ survivors (fun i ↦ p (h.val i)) onlyFirst y).map h.val) ∧
      h.Becomes h' (x ++ y) (x ++ survivors (fun i ↦ p (h.val i)) onlyFirst y) := by
  induction y generalizing h head x us previous fuel with
  | nil =>
    obtain ⟨fuel, rfl⟩ := Nat.exists_eq_succ_of_ne_zero (Nat.ne_zero_of_lt hfuel)
    have hnil : survivors (fun i ↦ p (h.val i)) onlyFirst [] = [] := by cases onlyFirst <;> rfl
    have hnone : taken (fun i ↦ p (h.val i)) onlyFirst [] = [] := by cases onlyFirst <;> rfl
    rw [hnil, hnone]
    exact ⟨head, h, rfl, hl.vals ▸ hl, .refl h _⟩
  | cons c y ih =>
    obtain ⟨fuel, rfl⟩ := Nat.exists_eq_succ_of_ne_zero (Nat.ne_zero_of_lt hfuel)
    have hc : c ∈ h.live := hl.live c (mem_append_right _ mem_cons_self)
    have hnext : h.next c = y.head? := hl.next_eq
    rw [List.head?_cons, dropLoop, node?_bind hc]
    dsimp only
    cases hp : p (h.val c) with
    | true =>
      obtain ⟨h₁, l₁, hstep, hlist, hbecomes, hnot, hc₁, hval⟩ :=
        hunlink h head previous x c y us hl hprevious
      have hfree : h.Becomes (h₁.without c) (x ++ c :: y) (x ++ y) :=
        hbecomes.without
      have hlist₁ := hlist.without hnot
      rw [if_pos rfl, hstep, bind_eq_bind, bind_some]
      dsimp only
      rw [survivors_cons_of_pos (p := fun i ↦ p (h.val i)) hp,
        taken_cons_of_pos (p := fun i ↦ p (h.val i)) hp, free_of_live hc₁, bind_eq_bind, bind_some]
      cases onlyFirst with
      | true => exact ⟨l₁, h₁.without c, rfl, hlist₁, hfree⟩
      | false =>
        obtain ⟨head', h', hloop, hlist', hbecomes'⟩ :=
          ih hlist₁ hprevious (Nat.lt_of_succ_lt_succ hfuel)
        have hval' : (h₁.without c).val = h.val := hval
        rw [hval'] at hloop hlist' hbecomes'
        refine ⟨head', h', ?_, hlist', hfree.trans hbecomes'⟩
        rw [if_neg Bool.false_ne_true, hloop]
        rfl
    | false =>
      rw [if_neg Bool.false_ne_true, survivors_cons_of_neg (p := fun i ↦ p (h.val i)) hp,
        taken_cons_of_neg (p := fun i ↦ p (h.val i)) hp, hnext]
      rw [append_cons x c y] at hl
      obtain ⟨head', h', hloop, hlist, hbecomes⟩ := ih hl (fun _ ↦ (List.getLast?_concat).symm)
        (Nat.lt_of_succ_lt_succ hfuel)
      rw [append_assoc, append_assoc, singleton_append, singleton_append]
        at hbecomes
      rw [append_assoc, singleton_append] at hlist
      exact ⟨head', h', hloop, hlist, hbecomes⟩

/-- What comes behind a list that is put together -/
theorem setTail_spec {t : Tailed} (hx : h.IsList t.first x us) (ht : t.tail = x.getLast?)
    (hy : h.IsList link y ys) (hdisj : ∀ i ∈ y, i ∉ x) :
    ∃ h' t', h.setTail t link = some (h', t') ∧ h'.IsList t'.first (x ++ y) (us ++ ys) ∧
      h.Becomes h' x x ∧ h'.val = h.val := by
  rcases eq_nil_or_concat' x with rfl | ⟨x, q, rfl⟩
  · obtain rfl : us = [] := hx.vals.symm
    refine ⟨h, { t with first := link }, ?_, hy, .refl h [], rfl⟩
    rw [setTail, ht]
    rfl
  · have hq : q ∈ h.live := hx.live q (mem_append_right _ mem_cons_self)
    have hlist := hx.relink hy hdisj
    rw [hx.vals, append_cons] at hlist
    refine ⟨h.relinked q link, t, ?_, hlist, ?_, rfl⟩
    · rw [setTail, ht, List.getLast?_concat]
      dsimp only
      rw [setNext_of_live hq]
      rfl
    · exact becomes_relinked h link (mem_append_right _ mem_cons_self)

/-- A node that is cut off from the ones behind it -/
theorem IsList.cut (hl : h.IsList head (c :: y) us) :
    (h.relinked c none).IsList (some c) [c] [h.val c] ∧
      (h.relinked c none).IsList (h.next c) y (y.map h.val) ∧
      h.Becomes (h.relinked c none) [c] [c] := by
  have hbecomes := becomes_relinked h none (mem_singleton_self c)
  have hnot := (nodup_cons.mp hl.nodup).1
  have hrest : h.IsList (h.next c) y (y.map h.val) := IsList.rest (x := []) hl
  refine ⟨?_, ?_, hbecomes⟩
  · have hone := IsList.relink (x := []) hl isList_nil fun _ hi ↦ absurd hi not_mem_nil
    obtain rfl : head = some c := hl.chain.1
    exact hone
  · refine hbecomes.isList hrest fun i hi hmem ↦ ?_
    exact hnot (mem_singleton.mp hmem ▸ hi)

/-- A node that is cut off is put at the end of one of the two lists that are put together: the
other one and the rest stay as they are. -/
theorem setTail_cut {t : Tailed} {m : List ℕ} {other : Option ℕ} (hx : h.IsList t.first x us)
    (ht : t.tail = x.getLast?) (he : h.IsList other e xs) (hy : h.IsList head (c :: y) ys)
    (hyx : ∀ i ∈ c :: y, i ∉ x) (hye : ∀ i ∈ c :: y, i ∉ e) (hxe : ∀ i ∈ x, i ∉ e)
    (hxm : ∀ i ∈ x, i ∈ m) (hcm : c ∈ m) :
    ∃ h' t', (h.relinked c none).setTail t (some c) = some (h', t') ∧
      h'.IsList t'.first (x ++ [c]) (us ++ [h.val c]) ∧ h'.IsList other e xs ∧
      h'.IsList (h.next c) y (y.map h.val) ∧ h.Becomes h' m m ∧ h'.val = h.val ∧
      (∀ i ∈ y, i ∉ x ++ [c]) ∧ ∀ i ∈ x ++ [c], i ∉ e := by
  obtain ⟨hone, hrest, hcut⟩ := hy.cut
  have hcx : c ∉ x := hyx c mem_cons_self
  have hce : c ∉ e := hye c mem_cons_self
  have hcy : c ∉ y := (nodup_cons.mp hy.nodup).1
  have hx₁ := hcut.isList hx fun i hi hmem ↦ hcx (mem_singleton.mp hmem ▸ hi)
  have he₁ := hcut.isList he fun i hi hmem ↦ hce (mem_singleton.mp hmem ▸ hi)
  obtain ⟨h', t', hset, hlist, hbecomes, hval⟩ :=
    setTail_spec hx₁ ht hone fun i hi hmem ↦ hcx (mem_singleton.mp hi ▸ hmem)
  refine ⟨h', t', hset, hlist, hbecomes.isList he₁ fun i hi hmem ↦ hxe i hmem hi,
    hbecomes.isList hrest fun i hi ↦ hyx i (mem_cons_of_mem _ hi), ?_, hval,
    fun i hi hmem ↦ ?_, fun i hi ↦ ?_⟩
  · exact (becomes_relinked h none hcm).trans (hbecomes.mono hxm fun _ hi ↦ .inr hi)
  · rcases mem_append.mp hmem with hmem | hmem
    · exact hyx i (mem_cons_of_mem _ hi) hmem
    · exact hcy (mem_singleton.mp hmem ▸ hi)
  · rcases mem_append.mp hi with hi | hi
    · exact hxe i hi
    · rwa [mem_singleton.mp hi]

/-- The walk splits the list: the two lists that are put together and the rest of the list have no
node in common. -/
theorem extractLoop_spec {fuel : ℕ} {self extracted : Tailed} {m : List ℕ}
    (hself : h.IsList self.first x us) (hselfTail : self.tail = x.getLast?)
    (hextracted : h.IsList extracted.first e xs) (hextractedTail : extracted.tail = e.getLast?)
    (hy : h.IsList head y ys) (hyx : ∀ i ∈ y, i ∉ x) (hye : ∀ i ∈ y, i ∉ e) (hxe : ∀ i ∈ x, i ∉ e)
    (hxm : ∀ i ∈ x, i ∈ m) (hem : ∀ i ∈ e, i ∈ m) (hym : ∀ i ∈ y, i ∈ m)
    (hfuel : y.length < fuel) :
    ∃ a b h', extractLoop p onlyFirst fuel self extracted head h = some (a, b, h') ∧
      h'.IsList a (x ++ survivors (fun i ↦ p (h.val i)) onlyFirst y)
        (us ++ survivors p onlyFirst ys) ∧
      h'.IsList b (e ++ taken (fun i ↦ p (h.val i)) onlyFirst y) (xs ++ taken p onlyFirst ys) ∧
      h.Becomes h' m m := by
  induction y generalizing h self extracted x e us xs ys head fuel with
  | nil =>
    obtain ⟨fuel, rfl⟩ := Nat.exists_eq_succ_of_ne_zero (Nat.ne_zero_of_lt hfuel)
    obtain rfl : head = none := hy.chain
    obtain rfl : ys = [] := hy.vals.symm
    refine ⟨self.first, extracted.first, h, rfl, ?_, ?_, .refl h m⟩
    · cases onlyFirst <;> simpa [survivors] using hself
    · cases onlyFirst <;> simpa [taken] using hextracted
  | cons c y ih =>
    obtain ⟨fuel, rfl⟩ := Nat.exists_eq_succ_of_ne_zero (Nat.ne_zero_of_lt hfuel)
    obtain rfl : head = some c := hy.chain.1
    obtain rfl : ys = h.val c :: y.map h.val := hy.vals.symm
    have hc : c ∈ h.live := hy.live c mem_cons_self
    have hcm : c ∈ m := hym c mem_cons_self
    have hym' : ∀ i ∈ y, i ∈ m := fun i hi ↦ hym i (mem_cons_of_mem _ hi)
    rw [extractLoop, node?_bind hc]
    dsimp only
    rw [setNext_of_live hc, bind_eq_bind, bind_some]
    cases hp : p (h.val c) with
    | true =>
      obtain ⟨h₂, t₂, hset, hextracted₂, hself₂, hrest₂, hsofar, hval, hye₂, hex₂⟩ :=
        setTail_cut hextracted hextractedTail hself hy hye hyx (fun i hi hmem ↦ hxe i hmem hi)
          hem hcm
      have hyx₂ : ∀ i ∈ y, i ∉ x := fun i hi ↦ hyx i (mem_cons_of_mem _ hi)
      rw [if_pos rfl, hset, bind_eq_bind, bind_some,
        survivors_cons_of_pos (p := fun i ↦ p (h.val i)) hp, survivors_cons_of_pos hp,
        taken_cons_of_pos (p := fun i ↦ p (h.val i)) hp, taken_cons_of_pos hp]
      dsimp only
      cases onlyFirst with
      | true =>
        obtain ⟨h₃, t₃, hset₃, hself₃, hbecomes₃, -⟩ := setTail_spec hself₂ hselfTail hrest₂ hyx₂
        refine ⟨t₃.first, t₂.first, h₃, ?_, hself₃, hbecomes₃.isList hextracted₂ hex₂,
          hsofar.trans (hbecomes₃.mono hxm fun _ hi ↦ .inr hi)⟩
        rw [if_pos rfl, hset₃]
        rfl
      | false =>
        let extracted' : Tailed := ⟨t₂.first, some c⟩
        have htail : extracted'.tail = (e ++ [c]).getLast? := (List.getLast?_concat).symm
        have hextracted' : h₂.IsList extracted'.first (e ++ [c]) (xs ++ [h.val c]) := hextracted₂
        obtain ⟨a, b, h', hloop, ha, hb, hbecomes⟩ := ih hself₂ hselfTail hextracted' htail hrest₂
          hyx₂ hye₂ (fun i hi hmem ↦ hex₂ i hmem hi) hxm
          (forall_mem_append.mpr ⟨hem, forall_mem_singleton.mpr hcm⟩) hym'
          (Nat.lt_of_succ_lt_succ hfuel)
        rw [hval, append_assoc, append_assoc] at hb
        rw [hval] at ha
        exact ⟨a, b, h', hloop, ha, hb, hsofar.trans hbecomes⟩
    | false =>
      obtain ⟨h₂, t₂, hset, hself₂, hextracted₂, hrest₂, hsofar, hval, hyx₂, hxe₂⟩ :=
        setTail_cut hself hselfTail hextracted hy hyx hye hxe hxm hcm
      have hye₂ : ∀ i ∈ y, i ∉ e := fun i hi ↦ hye i (mem_cons_of_mem _ hi)
      rw [if_neg Bool.false_ne_true, hset, bind_eq_bind, bind_some,
        survivors_cons_of_neg (p := fun i ↦ p (h.val i)) hp, survivors_cons_of_neg hp,
        taken_cons_of_neg (p := fun i ↦ p (h.val i)) hp, taken_cons_of_neg hp]
      let self' : Tailed := ⟨t₂.first, some c⟩
      have htail : self'.tail = (x ++ [c]).getLast? := (List.getLast?_concat).symm
      have hself' : h₂.IsList self'.first (x ++ [c]) (us ++ [h.val c]) := hself₂
      obtain ⟨a, b, h', hloop, ha, hb, hbecomes⟩ := ih hself' htail hextracted₂ hextractedTail
        hrest₂ hyx₂ hye₂ hxe₂
        (forall_mem_append.mpr ⟨hxm, forall_mem_singleton.mpr hcm⟩) hem hym'
        (Nat.lt_of_succ_lt_succ hfuel)
      rw [hval, append_assoc, append_assoc] at ha
      rw [hval] at hb
      exact ⟨a, b, h', hloop, ha, hb, hsofar.trans hbecomes⟩

/-- What either filter that drops does with a list -/
theorem dropFilter_spec (hunlink : Unlinks unlink) (p : α → Bool) (onlyFirst : Bool)
    (hl : h.IsList head l us) :
    ∃ head' h' l', dropLoop unlink p onlyFirst (h.live.card + 1) head head head h =
        some (head', h', taken p onlyFirst us) ∧
      h'.IsList head' l' (survivors p onlyFirst us) ∧ h.Becomes h' l l' ∧ l'.Nodup := by
  obtain ⟨head', h', hloop, hlist, hbecomes⟩ := dropLoop_spec (x := []) (p := p) hunlink hl
    (fun hne ↦ absurd rfl hne) (Nat.lt_succ_of_le hl.length_le)
  rw [map_taken, hl.vals, ← hl.chain.head_eq] at hloop
  rw [nil_append, map_survivors, hl.vals] at hlist
  exact ⟨head', h', _, hloop, hlist, hbecomes, hlist.nodup⟩

theorem listExtractFilter_spec (p : α → Bool) (onlyFirst : Bool) (hl : h.IsList head l us) :
    ∃ a b h' l' o, h.listExtractFilter head p onlyFirst = some (a, b, h') ∧
      h'.IsList a l' (survivors p onlyFirst us) ∧ h'.IsList b o (taken p onlyFirst us) ∧
      h.Becomes h' l (l' ++ o) ∧ (l' ++ o).Nodup := by
  have hnone : h.IsList (Tailed.mk none none).first [] [] := isList_nil
  have htail : (Tailed.mk none none).tail = ([] : List ℕ).getLast? := rfl
  have hmem : ∀ i ∈ ([] : List ℕ), i ∈ l := fun i hi ↦ absurd hi not_mem_nil
  obtain ⟨a, b, h', hloop, ha, hb, hbecomes⟩ := extractLoop_spec (p := p) hnone htail hnone htail
    hl (fun _ _ ↦ not_mem_nil) (fun _ _ ↦ not_mem_nil) (fun _ _ ↦ not_mem_nil) hmem
    hmem (fun _ hi ↦ hi) (Nat.lt_succ_of_le hl.length_le)
  have hperm : (survivors (fun i ↦ p (h.val i)) onlyFirst l ++
      taken (fun i ↦ p (h.val i)) onlyFirst l).Perm l := survivors_append_taken_perm l
  refine ⟨a, b, h', _, _, hloop, ha, hb, ?_, hperm.nodup_iff.mpr hl.nodup⟩
  exact hbecomes.mono (fun _ hi ↦ hi) fun i hi ↦ .inr (hperm.mem_iff.mp hi)

end NodeHeap

/-! ### The laws -/

/-- The lists of pointers to values, `_z_list_t`, and of values, `_z_slist_t` -/
inductive ListKind
  | linked
  | sized
  deriving DecidableEq

inductive ListOp (α : Type)
  | clone
  | dropFilter (p : α → Bool) (onlyFirst : Bool)
  | extractFilter (p : α → Bool) (onlyFirst : Bool)
  | pushBack (v : α)

/-- What an operation gives: the memory, the list, another list if there is one, and the values that
were given to the function that frees them -/
structure ListRun (α : Type) where
  heap : NodeHeap α
  list : Option ℕ
  other : Option ℕ
  dropped : List α

/-- A list in memory -/
structure OwnedList (α : Type) where
  heap : NodeHeap α
  head : Option ℕ
  nodes : List ℕ
  vals : List α
  isList : heap.IsList head nodes vals

namespace ListOp

/-- What a list holds of a value that is put into it. A list of values copies it. -/
def held (dF : α → α) (kind : ListKind) (v : α) : α :=
  match kind with
  | .linked => v
  | .sized => dF v

def run (a : Allocator) (dF : α → α) (kind : ListKind) (op : ListOp α) (h : NodeHeap α)
    (head : Option ℕ) : Option (ListRun α) :=
  match op, kind with
  | .clone, .linked => (h.listClone a dF head).map fun (new, h) ↦ ⟨h, head, new, []⟩
  | .clone, .sized => (h.slistClone a dF head).map fun (new, h) ↦ ⟨h, head, new, []⟩
  | .dropFilter p onlyFirst, .linked =>
    (h.listDropFilter head p onlyFirst).map fun (list, h, dropped) ↦ ⟨h, list, none, dropped⟩
  | .dropFilter p onlyFirst, .sized =>
    (h.slistDropFilter head p onlyFirst).map fun (list, h, dropped) ↦ ⟨h, list, none, dropped⟩
  | .extractFilter p onlyFirst, _ =>
    (h.listExtractFilter head p onlyFirst).map fun (list, other, h) ↦ ⟨h, list, other, []⟩
  | .pushBack v, _ =>
    (h.listPushBack a head (held dF kind v)).map fun (list, h) ↦ ⟨h, list, none, []⟩

/-- The values that the list is to have afterwards -/
def kept (dF : α → α) (kind : ListKind) (op : ListOp α) (xs : List α) : List α :=
  match op with
  | .clone => xs
  | .dropFilter p onlyFirst | .extractFilter p onlyFirst => survivors p onlyFirst xs
  | .pushBack v => xs ++ [held dF kind v]

/-- The values that the other list is to have -/
def parted (dF : α → α) (op : ListOp α) (xs : List α) : List α :=
  match op with
  | .clone => xs.map dF
  | .extractFilter p onlyFirst => taken p onlyFirst xs
  | .dropFilter _ _ | .pushBack _ => []

/-- The values that are to be freed -/
def freed (op : ListOp α) (xs : List α) : List α :=
  match op with
  | .dropFilter p onlyFirst => taken p onlyFirst xs
  | .clone | .extractFilter _ _ | .pushBack _ => []

/-- An operation on a list leaves the values that it is to leave, in their order, in nodes of that
list or in new ones, and no other node changes. -/
def Lawful (a : Allocator) (dF : α → α) (kind : ListKind) (op : ListOp α) (s : OwnedList α) :
    Prop :=
  ∃ r l o, op.run a dF kind s.heap s.head = some r ∧
    r.heap.IsList r.list l (op.kept dF kind s.vals) ∧
    r.heap.IsList r.other o (op.parted dF s.vals) ∧ r.dropped = op.freed s.vals ∧
    (l ++ o).Nodup ∧ s.heap.Becomes r.heap s.nodes (l ++ o)

/-- A new node gets its memory, and the values of a clone of the second kind of list read the same
in both directions. -/
def Fits (a : Allocator) (dF : α → α) (kind : ListKind) (op : ListOp α) (s : OwnedList α) : Prop :=
  match op with
  | .clone => (∀ k < s.vals.length, a.memory (s.heap.mallocs + k) = true) ∧
      (kind = .sized → (s.vals.map dF).reverse = s.vals.map dF)
  | .pushBack _ => a.memory s.heap.mallocs = true
  | .dropFilter _ _ | .extractFilter _ _ => True

variable {a : Allocator} {dF : α → α} {kind : ListKind} {s : OwnedList α}

theorem dropFilter_lawful (p : α → Bool) (onlyFirst : Bool) :
    Lawful a dF kind (.dropFilter p onlyFirst) s := by
  have hunlink : ∀ kind : ListKind, ∃ unlink, NodeHeap.Unlinks unlink ∧
      run a dF kind (.dropFilter p onlyFirst) s.heap s.head =
        (NodeHeap.dropLoop unlink p onlyFirst (s.heap.live.card + 1) s.head s.head s.head
          s.heap).map fun (list, h, dropped) ↦ ⟨h, list, none, dropped⟩ := by
    intro kind
    cases kind with
    | linked => exact ⟨_, NodeHeap.listUnlink_unlinks, rfl⟩
    | sized => exact ⟨_, NodeHeap.slistUnlink_unlinks, rfl⟩
  obtain ⟨unlink, hunlink, hrun⟩ := hunlink kind
  obtain ⟨head', h', l', hdrop, hlist, hbecomes, hnodup⟩ :=
    NodeHeap.dropFilter_spec hunlink p onlyFirst s.isList
  refine ⟨⟨h', head', none, taken p onlyFirst s.vals⟩, l', [], ?_, hlist, NodeHeap.isList_nil, rfl,
    ?_, ?_⟩
  · rw [hrun, hdrop]
    rfl
  · rwa [append_nil]
  · rwa [append_nil]

theorem extractFilter_lawful (p : α → Bool) (onlyFirst : Bool) :
    Lawful a dF kind (.extractFilter p onlyFirst) s := by
  obtain ⟨x, y, h', l', o, hextract, hx, hy, hbecomes, hnodup⟩ :=
    NodeHeap.listExtractFilter_spec p onlyFirst s.isList
  refine ⟨⟨h', x, y, []⟩, l', o, ?_, hx, hy, rfl, hnodup, hbecomes⟩
  rw [run, hextract]
  rfl

theorem pushBack_lawful_iff (v : α) :
    Lawful a dF kind (.pushBack v) s ↔ a.memory s.heap.mallocs = true := by
  constructor
  · rintro ⟨r, l, o, hrun, hlist, -⟩
    by_contra hmem
    rw [run, NodeHeap.listPushBack_of_none s.isList (Bool.eq_false_of_not_eq_true hmem)] at hrun
    obtain rfl := some.inj hrun
    have heq : s.vals = s.vals ++ [held dF kind v] := s.isList.counted.unique hlist
    have hlen := congrArg List.length heq
    rw [length_append, length_singleton] at hlen
    exact absurd hlen (Nat.ne_of_lt (Nat.lt_succ_self _))
  · intro hmem
    obtain ⟨head', h', hpush, hlist, hbecomes, -⟩ :=
      NodeHeap.listPushBack_of_memory s.isList hmem (held dF kind v)
    refine ⟨⟨h', head', none, []⟩, _, [], ?_, hlist, NodeHeap.isList_nil, rfl, ?_, ?_⟩
    · rw [run, hpush]
      rfl
    · rw [append_nil]
      exact hlist.nodup
    · rwa [append_nil]

/-- The clone in either order of the values that get a node -/
theorem clone_lawful_iff_of_spec {new : Option ℕ} {h' : NodeHeap α} {n : List ℕ} {ns : List α}
    (hrun : run a dF kind .clone s.heap s.head = some ⟨h', s.head, new, []⟩)
    (hn : h'.IsList new n ns) (hbecomes : s.heap.Becomes h' [] n) :
    Lawful a dF kind .clone s ↔ ns = s.vals.map dF := by
  constructor
  · rintro ⟨r, l, o, hrun', -, hother, -⟩
    obtain rfl := some.inj (hrun.symm.trans hrun')
    exact hn.unique hother
  · rintro rfl
    have hlist := hbecomes.isList s.isList fun _ _ ↦ not_mem_nil
    refine ⟨_, s.nodes, n, hrun, hlist, hn, rfl, ?_, ?_⟩
    · refine nodup_append.mpr ⟨hlist.nodup, hn.nodup, fun i hi j hj heq ↦ ?_⟩
      exact hbecomes.disjoint s.isList.live (fun _ _ ↦ not_mem_nil) i hi (heq ▸ hj)
    · exact hbecomes.mono (fun _ hi ↦ absurd hi not_mem_nil)
        fun _ hi ↦ (mem_append.mp hi).symm

theorem clone_lawful_iff : Lawful a dF kind .clone s ↔ Fits a dF kind .clone s := by
  have hlength : ∀ {ns : List α}, ns = s.vals.map dF →
      ns.length = (NodeHeap.supplied a.memory s.heap.mallocs s.vals).length →
      ∀ k < s.vals.length, a.memory (s.heap.mallocs + k) = true := by
    rintro ns rfl hlen
    rw [length_map] at hlen
    exact NodeHeap.length_supplied_eq_iff.mp hlen.symm
  cases kind with
  | linked =>
    obtain ⟨new, h', n, hclone, hn, hbecomes, -⟩ :=
      NodeHeap.listClone_spec (a := a) dF s.isList
    have hrun : run a dF .linked .clone s.heap s.head = some ⟨h', s.head, new, []⟩ := by
      rw [run, hclone]
      rfl
    rw [clone_lawful_iff_of_spec hrun hn hbecomes]
    constructor
    · exact fun heq ↦ ⟨hlength heq (length_map _), fun hkind ↦ nomatch hkind⟩
    · rintro ⟨hall, -⟩
      rw [NodeHeap.supplied_eq_self hall]
  | sized =>
    obtain ⟨new, h', n, hclone, hn, hbecomes, -⟩ :=
      NodeHeap.slistClone_spec (a := a) dF s.isList
    have hrun : run a dF .sized .clone s.heap s.head = some ⟨h', s.head, new, []⟩ := by
      rw [run, hclone]
      rfl
    rw [clone_lawful_iff_of_spec hrun hn hbecomes]
    constructor
    · intro heq
      have hall := hlength heq (by rw [length_reverse, length_map])
      rw [NodeHeap.supplied_eq_self hall] at heq
      exact ⟨hall, fun _ ↦ heq⟩
    · rintro ⟨hall, hsame⟩
      rw [NodeHeap.supplied_eq_self hall]
      exact hsame rfl

/-- An operation on a list keeps to the laws just where its new nodes get their memory, and the
clone of a list of values where it does not matter that it has them in the opposite order. -/
theorem lawful_iff_fits (a : Allocator) (dF : α → α) (kind : ListKind) (op : ListOp α)
    (s : OwnedList α) : Lawful a dF kind op s ↔ Fits a dF kind op s := by
  cases op with
  | clone => exact clone_lawful_iff
  | dropFilter p onlyFirst => exact iff_of_true (dropFilter_lawful p onlyFirst) trivial
  | extractFilter p onlyFirst => exact iff_of_true (extractFilter_lawful p onlyFirst) trivial
  | pushBack v => exact pushBack_lawful_iff v

/-- Memory for every node -/
def plenty : Allocator := .behind fun _ ↦ true

/-- The list of 1 and 2, in the nodes 0 and 1 -/
def oneTwo : OwnedList ℕ where
  heap := ⟨{0, 1}, fun i ↦ i + 1, fun i ↦ if i = 0 then some 1 else none, 0⟩
  head := some 0
  nodes := [0, 1]
  vals := [1, 2]
  isList := ⟨⟨rfl, rfl, rfl⟩, by decide, by decide, rfl⟩

/-- The clone of a list of two values has the second one first. -/
theorem not_lawful_clone_oneTwo : ¬ Lawful plenty id .sized .clone oneTwo ∧
      ∃ new h n, oneTwo.heap.slistClone plenty id oneTwo.head = some (new, h) ∧
        h.IsList new n [2, 1] := by
  refine ⟨fun hlawful ↦ ?_, ?_⟩
  · obtain ⟨-, hsame⟩ := clone_lawful_iff.mp hlawful
    exact absurd (hsame rfl) (by decide)
  · obtain ⟨new, h, n, hclone, hn, -⟩ := NodeHeap.slistClone_spec (a := plenty) id oneTwo.isList
    exact ⟨new, h, n, hclone, hn⟩

end ListOp

end ZenohPico.Collections
