import ZenohPico.Foundations.StarMatching

/-!
What the stripping of two patterns meets on its way: the pairs of letters it compares, the middle it
hands on at a star, the rest that a leading star is to absorb. Two runs, over patterns whose letters
are renamed and with other ways to compare, give one answer as long as they agree on what the first
one meets (`stripFront_map_eq`).
-/

open List Option

namespace ZenohPico.Foundations

variable {α β : Type*}

/-- What is met behind a leading star, with both patterns reversed: pairs of letters, and at the end
a rest or a middle -/
def MeetsBack (both : Bool) (r : α → α → Bool) (rest : List (Option α) → Prop)
    (middle : List (Option α) → List (Option α) → Prop) (pair : α → α → Prop) :
    List (Option α) → List (Option α) → Prop
  | [], q => rest q.reverse
  | _ :: _, [] => True
  | none :: p, b :: q => middle (none :: p).reverse (b :: q).reverse
  | some a :: p, none :: q => both = true → middle (some a :: p).reverse (none :: q).reverse
  | some a :: p, some b :: q => pair a b ∧ (r a b = true → MeetsBack both r rest middle pair p q)

/-- What is met from the front on -/
def MeetsFront (both : Bool) (front back : α → α → Bool) (rest : List (Option α) → Prop)
    (middle : List (Option α) → List (Option α) → Prop) (pair : α → α → Prop) :
    List (Option α) → List (Option α) → Prop
  | [], _ => True
  | _ :: _, [] => True
  | none :: p, b :: q => MeetsBack both back rest middle pair p.reverse (b :: q).reverse
  | some a :: p, none :: q =>
    both = true → MeetsBack both back rest middle pair q.reverse (some a :: p).reverse
  | some a :: p, some b :: q =>
    front a b = true → MeetsFront both front back rest middle pair p q

section Meets

variable {both : Bool} {front back : α → α → Bool} {rest rest' : List (Option α) → Prop}
  {middle middle' : List (Option α) → List (Option α) → Prop} {pair pair' : α → α → Prop}

theorem meetsBack_true {p q : List (Option α)} :
    MeetsBack both back (fun _ ↦ True) (fun _ _ ↦ True) (fun _ _ ↦ True) p q := by
  induction p generalizing q with
  | nil => trivial
  | cons a p ih =>
    match a, q with
    | none, [] => trivial
    | some a, [] => trivial
    | none, b :: q => trivial
    | some a, none :: q => exact fun _ ↦ trivial
    | some a, some b :: q => exact ⟨trivial, fun _ ↦ ih⟩

theorem meetsFront_true {p q : List (Option α)} :
    MeetsFront both front back (fun _ ↦ True) (fun _ _ ↦ True) (fun _ _ ↦ True) p q := by
  induction p generalizing q with
  | nil => trivial
  | cons a p ih =>
    match a, q with
    | none, [] => trivial
    | some a, [] => trivial
    | none, b :: q => exact meetsBack_true
    | some a, none :: q => exact fun _ ↦ meetsBack_true
    | some a, some b :: q => exact fun _ ↦ ih

section Imp

variable {G : α → Prop} (hrest : ∀ y, AllLetters G y → rest y → rest' y)
  (hmiddle : ∀ x y, AllLetters G x → AllLetters G y → middle x y → middle' x y)
  (hpair : ∀ a b, G a → G b → pair a b → pair' a b) {p q : List (Option α)}

include hrest hmiddle hpair

/-- Patterns of good letters meet good letters only, so that what is met need only be weakened
there. -/
theorem MeetsBack.imp (hp : AllLetters G p) (hq : AllLetters G q)
    (h : MeetsBack both back rest middle pair p q) :
    MeetsBack both back rest' middle' pair' p q := by
  have hreverse : ∀ {x : List (Option α)}, AllLetters G x → AllLetters G x.reverse :=
    fun h a ha ↦ h a (mem_reverse.mp ha)
  induction p generalizing q with
  | nil => exact hrest _ (hreverse hq) h
  | cons a p ih =>
    match a, q with
    | none, [] => trivial
    | some a, [] => trivial
    | none, b :: q => exact hmiddle _ _ (hreverse hp) (hreverse hq) h
    | some a, none :: q => exact fun hboth ↦ hmiddle _ _ (hreverse hp) (hreverse hq) (h hboth)
    | some a, some b :: q =>
      exact ⟨hpair a b (hp a mem_cons_self) (hq b mem_cons_self) h.1, fun hab ↦
        ih (hp.of_subset (subset_cons_self _ _)) (hq.of_subset (subset_cons_self _ _))
          (h.2 hab)⟩

theorem MeetsFront.imp (hp : AllLetters G p) (hq : AllLetters G q)
    (h : MeetsFront both front back rest middle pair p q) :
    MeetsFront both front back rest' middle' pair' p q := by
  have hback : ∀ {x y : List (Option α)}, AllLetters G x → AllLetters G y →
      MeetsBack both back rest middle pair x.reverse y.reverse →
        MeetsBack both back rest' middle' pair' x.reverse y.reverse := fun hx hy ↦
    MeetsBack.imp hrest hmiddle hpair (fun a ha ↦ hx a (mem_reverse.mp ha))
      fun a ha ↦ hy a (mem_reverse.mp ha)
  induction p generalizing q with
  | nil => trivial
  | cons a p ih =>
    match a, q with
    | none, [] => trivial
    | some a, [] => trivial
    | none, b :: q => exact hback (hp.of_subset (subset_cons_self _ _)) hq h
    | some a, none :: q =>
      exact fun hboth ↦ hback (hq.of_subset (subset_cons_self _ _)) hp (h hboth)
    | some a, some b :: q =>
      exact fun hab ↦ ih (hp.of_subset (subset_cons_self _ _))
        (hq.of_subset (subset_cons_self _ _)) (h hab)

end Imp

end Meets

section Map

variable {both : Bool} {front back : α → α → Bool} {front' back' : β → β → Bool}
  {clean : List (Option α) → Bool} {clean' : List (Option β) → Bool}
  {onStar : List (Option α) → List (Option α) → Option Bool}
  {onStar' : List (Option β) → List (Option β) → Option Bool} (f : α → β)

theorem isLoneStar_map (p : List (Option α)) :
    isLoneStar (p.map (Option.map f)) = isLoneStar p := by
  rw [Bool.eq_iff_iff, isLoneStar_iff, isLoneStar_iff, map_eq_singleton_iff]
  constructor
  · rintro ⟨a, rfl, ha⟩
    rw [map_eq_none_iff.mp ha]
  · rintro rfl
    exact ⟨none, rfl, rfl⟩

theorem stripBack_map_eq {p q : List (Option α)}
    (h : MeetsBack both back (fun y ↦ clean' (y.map (Option.map f)) = clean y)
      (fun x y ↦ onStar' (x.map (Option.map f)) (y.map (Option.map f)) = onStar x y)
      (fun a b ↦ back' (f a) (f b) = back a b) p q) :
    stripBack both back' clean' onStar' (p.map (Option.map f)) (q.map (Option.map f)) =
      stripBack both back clean onStar p q := by
  induction p generalizing q with
  | nil =>
    rw [map_nil, stripBack, stripBack, ← map_reverse]
    exact congrArg some h
  | cons a p ih =>
    cases q with
    | nil => cases a <;> rfl
    | cons b q =>
      cases a with
      | none =>
        rw [map_cons, map_cons, map_none, stripBack, stripBack, ← map_cons,
          ← map_reverse, ← map_none, ← map_cons, ← map_reverse]
        exact h
      | some a =>
        cases b with
        | none =>
          rw [map_cons, map_cons, map_none, map_some, stripBack, stripBack]
          split_ifs with hboth
          · have hmiddle := h hboth
            dsimp only at hmiddle
            rw [map_reverse, map_reverse] at hmiddle
            exact hmiddle
          · rfl
        | some b =>
          rw [map_cons, map_cons, map_some, map_some, stripBack, stripBack, h.1]
          split_ifs with hab
          · exact ih (h.2 hab)
          · rfl

/-- A run over renamed letters gives the answer of the first one, where the two agree on what the
first one meets. -/
theorem stripFront_map_eq {p q : List (Option α)}
    (hfront : ∀ a b, some a ∈ p → some b ∈ q → front' (f a) (f b) = front a b)
    (h : MeetsFront both front back (fun y ↦ clean' (y.map (Option.map f)) = clean y)
      (fun x y ↦ onStar' (x.map (Option.map f)) (y.map (Option.map f)) = onStar x y)
      (fun a b ↦ back' (f a) (f b) = back a b) p q) :
    stripFront both front' back' clean' onStar' (p.map (Option.map f)) (q.map (Option.map f)) =
      stripFront both front back clean onStar p q := by
  induction p generalizing q with
  | nil =>
    rw [map_nil, stripFront, stripFront, isLoneStar_map, isEmpty_map]
  | cons a p ih =>
    cases q with
    | nil =>
      have hstar := isLoneStar_map f (a :: p)
      rw [map_cons] at hstar
      cases a <;> exact congrArg some hstar
    | cons b q =>
      cases a with
      | none =>
        change stripBack both back' clean' onStar' (p.map (Option.map f)).reverse
          ((b :: q).map (Option.map f)).reverse = _
        rw [stripFront, ← map_reverse, ← map_reverse]
        exact stripBack_map_eq f h
      | some a =>
        cases b with
        | none =>
          rw [map_cons, map_cons, map_none, map_some, stripFront, stripFront]
          split_ifs with hboth
          · rw [← map_some, ← map_cons, ← map_reverse, ← map_reverse]
            exact stripBack_map_eq f (h hboth)
          · rfl
        | some b =>
          rw [map_cons, map_cons, map_some, map_some, stripFront,
            stripFront, hfront a b mem_cons_self mem_cons_self]
          split_ifs with hab
          · refine ih (fun c d hc hd ↦ ?_) (h hab)
            exact hfront c d (mem_cons_of_mem _ hc) (mem_cons_of_mem _ hd)
          · rfl

end Map

/-- Behind a letter that both patterns end in, the stripping goes on as without it. -/
theorem stripFront_concat_letter {both : Bool} {r : α → α → Bool} {clean : List (Option α) → Bool}
    {onStar : List (Option α) → List (Option α) → Option Bool} {a : α} (ha : r a a = true)
    (hclean : clean [] = true) (p q : List (Option α)) :
    stripFront both r r clean onStar (p ++ [some a]) (q ++ [some a]) =
      stripFront both r r clean onStar p q := by
  -- the letter is the first that is compared behind a star
  have hback : ∀ x y : List (Option α), stripBack both r clean onStar (x ++ [some a]).reverse
      (y ++ [some a]).reverse = stripBack both r clean onStar x.reverse y.reverse := by
    intro x y
    rw [reverse_concat, reverse_concat, stripBack, if_pos ha]
  have hrest : ∀ x : List (Option α),
      stripBack both r clean onStar x.reverse [] = some (isLoneStar (none :: x)) := by
    intro x
    cases x using List.reverseRecOn with
    | nil => exact congrArg some hclean
    | append_singleton x b =>
      rw [reverse_concat]
      cases x <;> rfl
  have hlone : ∀ x : List (Option α), isLoneStar (x ++ [some a]) = false := by
    intro x
    rw [Bool.eq_false_iff, ne_eq, isLoneStar_iff]
    intro hstar
    have hmem : some a ∈ x ++ [some a] := by simp
    rw [hstar] at hmem
    simp at hmem
  have hleft : ∀ x : List (Option α),
      stripFront both r r clean onStar (x ++ [some a]) [] = some false := by
    intro x
    rw [← hlone x]
    cases x <;> rfl
  induction p generalizing q with
  | nil =>
    cases q with
    | nil =>
      change (if r a a = true then stripFront both r r clean onStar [] [] else some false) = _
      rw [if_pos ha]
    | cons b q =>
      cases b with
      | none =>
        change (if both = true then stripBack both r clean onStar (q ++ [some a]).reverse
          ([] ++ [some a]).reverse else some false) = some (both && isLoneStar (none :: q))
        rw [hback, reverse_nil, hrest]
        cases both <;> rfl
      | some b =>
        change (if r a b = true then stripFront both r r clean onStar [] (q ++ [some a])
          else some false) = some (both && isLoneStar (some b :: q))
        rw [stripFront, hlone]
        simp [isLoneStar]
  | cons c p ih =>
    cases q with
    | nil =>
      cases c with
      | none => exact (hback p []).trans (hrest p)
      | some c =>
        change (if r c a = true then stripFront both r r clean onStar (p ++ [some a]) []
          else some false) = some false
        rw [hleft, ite_self]
    | cons b q =>
      cases c with
      | none => exact hback p (b :: q)
      | some c =>
        cases b with
        | none =>
          change (if both = true then stripBack both r clean onStar (q ++ [some a]).reverse
            (some c :: p ++ [some a]).reverse else some false) = _
          rw [hback, stripFront]
        | some b =>
          change (if r c b = true then stripFront both r r clean onStar (p ++ [some a])
            (q ++ [some a]) else some false) = _
          rw [ih, stripFront]

end ZenohPico.Foundations
