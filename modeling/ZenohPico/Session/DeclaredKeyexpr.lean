import ZenohPico.Keyexpr.CanonizeKept
import ZenohPico.Session.Resources

/-!
Declared key expressions (`src/session/keyexpr.c`): key expressions of which a part in front is a
resource of the session, so that only the rest has to be sent.

A declaration is shared by the key expressions that are made from one another. It knows the length
of the declared part in 16 bits, and what is appended leaves that part as it is. What is joined is
put into canonical form, which may rewrite it: then the wire expression stands for another key.
-/

open List Option

namespace ZenohPico.Session

open Keyexpr

/-! ### Key expressions and their declarations -/

/-- `_z_keyexpr_wire_declaration_t`, on the one session there is -/
structure WireDeclaration where
  id : UInt16
  prefixLen : UInt16
deriving DecidableEq, Repr

/-- `_z_declared_keyexpr_t` -/
structure DeclaredKeyexpr where
  inner : List UInt8
  declaration : Option WireDeclaration
deriving DecidableEq, Repr

/-- `_z_declared_keyexpr_alias_to_wire`. There is no answer where the length of the declared part is
more than that of the text, and the difference wraps. -/
def aliasToWire (key : DeclaredKeyexpr) : Option WireExpr :=
  match key.declaration with
  | none => some ⟨0, key.inner, .session⟩
  | some declaration =>
    if declaration.prefixLen.toNat ≤ key.inner.length then
      some ⟨declaration.id, key.inner.drop declaration.prefixLen.toNat, .session⟩
    else none

/-- `_z_declared_keyexpr_is_fully_optimized` (for the whole length) and
`_z_declared_keyexpr_is_non_wild_prefix_optimized` (for that of the part without wildcards) -/
def isOptimized (key : DeclaredKeyexpr) (len : ℕ) : Bool :=
  match key.declaration with
  | none => false
  | some declaration => declaration.prefixLen.toNat = len

/-- The loop of `_z_keyexpr_non_wild_prefix_len` -/
def backToDelimiter (data : List UInt8) : ℕ → ℕ
  | 0 => 0
  | pos + 1 => if byteAt data (pos + 1) = delimiter then pos + 1 else backToDelimiter data pos

/-- `_z_keyexpr_non_wild_prefix_len` -/
def nonWildPrefixLen (key : List UInt8) : ℕ :=
  match memchr key star 0 key.length with
  | none => key.length
  | some pos => backToDelimiter key pos

/-- `_z_keyexpr_concat` -/
def keyexprConcat (left right : List UInt8) : Option (List UInt8) :=
  if left = [] then if right = [] then none else some right
  else if left.getLast? = some star ∧ right.head? = some star then none
  else some (left ++ right)

/-- The text that `_z_string_concat_substr` makes with a `/` between the two -/
def joinedText (left right : List UInt8) : List UInt8 :=
  if right = [] then left else left ++ delimiter :: right

/-- `_z_keyexpr_join`, where `behind` is in memory behind the block that holds the text -/
def keyexprJoin (left right behind : List UInt8) : Option (List UInt8) :=
  let text := joinedText left right
  match keyexprCanonize (text ++ behind) text.length with
  | .returned .success mem len => some (mem.take len)
  | _ => none

/-! ### The session -/

/-- The resources of a session, and the key expressions that have been made in it -/
structure KeyexprSession where
  resources : LocalResources
  keyexprs : List DeclaredKeyexpr

/-- How key expressions are made. A declaration that cannot be sent is withdrawn. -/
inductive KeyexprEvent
  | fromText (text : List UInt8)
  | copy (key : ℕ)
  | declare (key : ℕ) (sent : Bool)
  | declareNonWildPrefix (key : ℕ) (sent : Bool)
  | concat (left : ℕ) (right : List UInt8)
  | join (left right : ℕ) (behind : List UInt8)
deriving DecidableEq, Repr

/-- `_z_declare_resource`: the id, and the resources after that -/
def declareResource (w : LocalResources) (key : List UInt8) (sent : Bool) :
    Option UInt16 × LocalResources :=
  match registerResource w.tables ⟨0, key, .session⟩ 0 .session with
  | none => (none, w)
  | some (id, _) =>
    let w := w.step (.register 0 key)
    if sent then (some id, w) else (none, w.step (.unregister id))

/-- `_z_keyexpr_declare_prefix`. Nothing is declared on a multicast transport. -/
def declarePrefix (multicast : Bool) (w : LocalResources) (key : List UInt8) (prefixLen : ℕ)
    (sent : Bool) : Option DeclaredKeyexpr × LocalResources :=
  if prefixLen = 0 ∨ multicast then (some ⟨key, none⟩, w)
  else
    match declareResource w (key.take prefixLen) sent with
    | (some id, w) => (some ⟨key, some ⟨id, UInt16.ofNat prefixLen⟩⟩, w)
    | (none, w) => (none, w)

/-- `_z_declared_keyexpr_declare` (for the whole length) and
`_z_declared_keyexpr_declare_non_wild_prefix` (for that of the part without wildcards) -/
def declareKeyexpr (multicast : Bool) (w : LocalResources) (key : DeclaredKeyexpr) (len : ℕ)
    (sent : Bool) : Option DeclaredKeyexpr × LocalResources :=
  if isOptimized key len then (some key, w) else declarePrefix multicast w key.inner len sent

namespace KeyexprSession

/-- A session in which nothing has been made -/
def init : KeyexprSession := ⟨.init, []⟩

/-- What an event makes, and the resources after that: `_z_declared_keyexpr_from_string`,
`_z_declared_keyexpr_copy`, `_z_declared_keyexpr_declare`,
`_z_declared_keyexpr_declare_non_wild_prefix`, `_z_declared_keyexpr_concat`,
`_z_declared_keyexpr_join` -/
def make (multicast : Bool) (w : KeyexprSession) :
    KeyexprEvent → Option DeclaredKeyexpr × LocalResources
  | .fromText text => (some ⟨text, none⟩, w.resources)
  | .copy key => (w.keyexprs[key]?, w.resources)
  | .declare key sent =>
    match w.keyexprs[key]? with
    | none => (none, w.resources)
    | some key => declareKeyexpr multicast w.resources key key.inner.length sent
  | .declareNonWildPrefix key sent =>
    match w.keyexprs[key]? with
    | none => (none, w.resources)
    | some key => declareKeyexpr multicast w.resources key (nonWildPrefixLen key.inner) sent
  | .concat left right =>
    (w.keyexprs[left]?.bind fun left ↦
      (keyexprConcat left.inner right).map (⟨·, left.declaration⟩), w.resources)
  | .join left right behind =>
    (w.keyexprs[left]?.bind fun left ↦ w.keyexprs[right]?.bind fun right ↦
      (keyexprJoin left.inner right.inner behind).map (⟨·, left.declaration⟩), w.resources)

/-- One step of a session -/
def step (multicast : Bool) (w : KeyexprSession) (e : KeyexprEvent) : KeyexprSession :=
  ⟨(w.make multicast e).2, w.keyexprs ++ (w.make multicast e).1.toList⟩

/-- A run of a session -/
def run (multicast : Bool) (w : KeyexprSession) (events : List KeyexprEvent) : KeyexprSession :=
  events.foldl (step multicast) w

/-- The wire expression of a key expression stands for it: the text of its resource, if it has one,
followed by its suffix. -/
def Denotes (w : KeyexprSession) (key : DeclaredKeyexpr) : Prop :=
  ∃ expr, aliasToWire key = some expr ∧
    getKeyexprFromWireexprInner w.resources.tables.localResources expr = some key.inner

/-- A part can be declared: its length fits into 16 bits, and its registration is fresh. -/
def Declarable (w : KeyexprSession) (key : DeclaredKeyexpr) (len : ℕ) : Prop :=
  isOptimized key len = false → len ≠ 0 →
    (key.inner.take len).length < UInt16.size ∧ w.resources.Fresh (.register 0 (key.inner.take len))

/-- What is declared can be. In what is joined, the declared part of what is on the left is in front
of the first place that is rewritten: a `$*` behind a `$*`, a chunk that is `$*`, or a `**` in front
of a `*` or `**`. Nothing behind the block of the text is read for a part of it. -/
def Clean (w : KeyexprSession) : KeyexprEvent → Prop
  | .declare key _ => ∀ k, w.keyexprs[key]? = some k → w.Declarable k k.inner.length
  | .declareNonWildPrefix key _ => ∀ k, w.keyexprs[key]? = some k →
      w.Declarable k (nonWildPrefixLen k.inner)
  | .join left right behind => ∀ l r, w.keyexprs[left]? = some l → w.keyexprs[right]? = some r →
      ¬ Overread (joinedText l.inner r.inner) behind ∧
        ∀ declaration, l.declaration = some declaration →
          Kept (joinedText l.inner r.inner) declaration.prefixLen.toNat
  | _ => True

/-- Every step of a run is clean. -/
def CleanRun (multicast : Bool) (w : KeyexprSession) : List KeyexprEvent → Prop
  | [] => True
  | e :: events => w.Clean e ∧ CleanRun multicast (w.step multicast e) events

/-! ### Declarations -/

theorem count_key_unique {w : LocalResources} (h : w.Inv) {id : UInt16} {key key' : List UInt8}
    (hkey : 0 < w.count id key) (hkey' : 0 < w.count id key') : key = key' := by
  obtain ⟨res, hres, hid, rfl⟩ := (h.exact.registered_iff id key).mpr hkey
  obtain ⟨res', hres', hid', rfl⟩ := (h.exact.registered_iff id key').mpr hkey'
  rw [h.eq_of_id hres hres' (hid.trans hid'.symm)]

/-- A declaration registers its key, or leaves what is registered as it is. -/
theorem declareResource_spec {w : LocalResources} (h : w.Inv) {key : List UInt8}
    (hfresh : w.Fresh (.register 0 key)) (sent : Bool) : (declareResource w key sent).2.Inv ∧
      (∀ i k, 0 < w.count i k → 0 < (declareResource w key sent).2.count i k) ∧
      ∀ id, (declareResource w key sent).1 = some id →
        0 < (declareResource w key sent).2.count id key := by
  have hkey : w.newKey 0 key = some key := rfl
  have hregister := h.registerResource_eq hkey fun r hr hr' ↦ ((hfresh key hkey).1 r hr hr').1
  generalize registerKey w.tables key 0 .session = out at hregister
  have hcount : (w.step (.register 0 key)).count =
      fun i k ↦ if i = out.1 ∧ k = key then w.count i k + 1 else w.count i k := by
    rw [LocalResources.step, hkey, hregister]
  have hinv : (w.step (.register 0 key)).Inv := h.register hfresh
  have hself : 0 < (w.step (.register 0 key)).count out.1 key := by
    rw [hcount]
    simp
  have hmono : ∀ i k, 0 < w.count i k → 0 < (w.step (.register 0 key)).count i k := by
    intro i k hpos
    rw [hcount]
    dsimp only
    split
    · exact Nat.succ_pos _
    · exact hpos
  rw [declareResource, hregister]
  cases sent with
  | true =>
    refine ⟨hinv, hmono, ?_⟩
    rintro id hid
    obtain rfl := some.inj hid
    exact hself
  | false =>
    refine ⟨hinv.unregister out.1, fun i k hpos ↦ ?_, by simp⟩
    have hunregister : ((w.step (.register 0 key)).step (.unregister out.1)).count i k =
        if i = out.1 then (w.step (.register 0 key)).count i k - 1
        else (w.step (.register 0 key)).count i k := rfl
    change 0 < ((w.step (.register 0 key)).step (.unregister out.1)).count i k
    rw [hunregister]
    split
    · next hid =>
      subst hid
      obtain rfl := count_key_unique hinv (hmono _ k hpos) hself
      rw [hcount]
      simpa using hpos
    · exact hmono i k hpos

theorem backToDelimiter_le (data : List UInt8) (pos : ℕ) : backToDelimiter data pos ≤ pos := by
  induction pos with
  | zero => exact Nat.le_refl _
  | succ pos ih =>
    rw [backToDelimiter]
    split
    · exact Nat.le_refl _
    · exact Nat.le_succ_of_le ih

/-- The part without wildcards is a part of the key expression. -/
theorem nonWildPrefixLen_le (key : List UInt8) : nonWildPrefixLen key ≤ key.length := by
  rw [nonWildPrefixLen]
  cases hpos : memchr key star 0 key.length with
  | none => exact Nat.le_refl _
  | some pos =>
    have hlt := (memchr_bounds hpos).2
    have hle := backToDelimiter_le key pos
    dsimp only
    omega

/-! ### What wire expressions stand for -/

/-- The declared part of a key expression is registered under the id of its declaration. -/
def Declared (w : LocalResources) (key : DeclaredKeyexpr) : Prop :=
  ∀ declaration, key.declaration = some declaration →
    declaration.prefixLen.toNat ≤ key.inner.length ∧
      0 < w.count declaration.id (key.inner.take declaration.prefixLen.toNat)

/-- The declared parts of all key expressions are registered. -/
structure Inv (w : KeyexprSession) : Prop where
  resources : w.resources.Inv
  declared : ∀ key ∈ w.keyexprs, Declared w.resources key

variable {w : KeyexprSession} {multicast : Bool}

theorem init_inv : init.Inv where
  resources := LocalResources.init_inv
  declared := fun _ hkey ↦ absurd hkey not_mem_nil

variable {key : DeclaredKeyexpr}

theorem Inv.denotes (h : w.Inv) (hkey : key ∈ w.keyexprs) : w.Denotes key := by
  cases hdeclaration : key.declaration with
  | none => exact ⟨⟨0, key.inner, .session⟩, by simp [aliasToWire, hdeclaration], rfl⟩
  | some declaration =>
    obtain ⟨hle, hcount⟩ := h.declared key hkey declaration hdeclaration
    refine ⟨⟨declaration.id, key.inner.drop declaration.prefixLen.toNat, .session⟩,
      by simp [aliasToWire, hdeclaration, hle], ?_⟩
    obtain ⟨res, hres, hid, hbegins⟩ := (h.resources.exact.registered_iff _ _).mpr hcount
    have hne : declaration.id ≠ 0 := hid ▸ h.resources.ids_ne_zero res hres
    have hfind : getResourceById w.resources.tables.localResources declaration.id = some res :=
      Foundations.find?_of_mem h.resources.ids hres hid
    rw [getKeyexprFromWireexprInner, if_neg hne, hfind, map_some, hbegins, take_append_drop]

/-- What is declared of a key expression that can be declared -/
theorem Inv.declareKeyexpr (h : w.Inv) (hkey : key ∈ w.keyexprs) {len : ℕ}
    (hlen : len ≤ key.inner.length) (hdeclarable : w.Declarable key len) (sent : Bool) :
    (declareKeyexpr multicast w.resources key len sent).2.Inv ∧ (∀ i k, 0 < w.resources.count i k →
        0 < (declareKeyexpr multicast w.resources key len sent).2.count i k) ∧
      ∀ out, (declareKeyexpr multicast w.resources key len sent).1 = some out →
        Declared (declareKeyexpr multicast w.resources key len sent).2 out := by
  rw [Session.declareKeyexpr]
  cases hoptimized : isOptimized key len with
  | true =>
    refine ⟨h.resources, fun _ _ hpos ↦ hpos, fun out hout ↦ ?_⟩
    obtain rfl := some.inj hout
    exact h.declared key hkey
  | false =>
    rw [if_neg Bool.false_ne_true, declarePrefix]
    split
    · refine ⟨h.resources, fun _ _ hpos ↦ hpos, fun out hout declaration hdeclaration ↦ ?_⟩
      obtain rfl := some.inj hout
      cases hdeclaration
    · next hskip =>
      obtain ⟨hsize, hfresh⟩ := hdeclarable hoptimized fun hzero ↦ hskip (.inl hzero)
      obtain ⟨hinv, hmono, hdeclared⟩ := declareResource_spec h.resources hfresh sent
      generalize declareResource w.resources (key.inner.take len) sent = result at *
      rcases result with ⟨id, resources⟩
      cases id with
      | none => exact ⟨hinv, hmono, by simp⟩
      | some id =>
        refine ⟨hinv, hmono, fun out hout declaration hdeclaration ↦ ?_⟩
        obtain rfl := some.inj hout
        obtain rfl := some.inj hdeclaration
        rw [length_take, Nat.min_eq_left hlen] at hsize
        have htoNat : (UInt16.ofNat len).toNat = len := UInt16.toNat_ofNat_of_lt' hsize
        dsimp only
        rw [htoNat]
        exact ⟨hlen, hdeclared id rfl⟩

variable {text : List UInt8}

/-- What is appended to a key expression leaves its declared part as it is. -/
theorem Declared.of_begins {w : LocalResources} (h : Declared w key)
    (hbegins : ∀ declaration, key.declaration = some declaration →
      key.inner.take declaration.prefixLen.toNat <+: text) :
    Declared w ⟨text, key.declaration⟩ := by
  intro declaration hdeclaration
  obtain ⟨hle, hcount⟩ := h declaration hdeclaration
  have hpre := hbegins declaration hdeclaration
  have hlen : (key.inner.take declaration.prefixLen.toNat).length =
      declaration.prefixLen.toNat := by
    rw [length_take, Nat.min_eq_left hle]
  refine ⟨hlen ▸ hpre.length_le, ?_⟩
  have htake : text.take declaration.prefixLen.toNat =
      key.inner.take declaration.prefixLen.toNat := by
    have heq := prefix_iff_eq_take.mp hpre
    rw [hlen] at heq
    exact heq.symm
  dsimp only
  rw [htake]
  exact hcount

/-- A text that is appended to begins the result. -/
theorem keyexprConcat_begins {left right : List UInt8} (h : keyexprConcat left right = some text) :
    left <+: text := by
  rw [keyexprConcat] at h
  split at h
  · next hnil => exact hnil ▸ nil_prefix
  · split at h
    · cases h
    · obtain rfl := some.inj h
      exact prefix_append left right

theorem prefix_joinedText (left right : List UInt8) : left <+: joinedText left right := by
  rw [joinedText]
  split
  · exact prefix_rfl
  · exact prefix_append left _

/-- What is in front of all that is rewritten begins the result. -/
theorem keyexprJoin_begins {left right behind : List UInt8} {k : ℕ}
    (hread : ¬ Overread (joinedText left right) behind) (hkept : Kept (joinedText left right) k)
    (hk : k ≤ left.length) (h : keyexprJoin left right behind = some text) :
    left.take k <+: text := by
  have hpre := prefix_joinedText left right
  have hsame : (joinedText left right).take k = left.take k := by
    obtain ⟨rest, hrest⟩ := hpre
    rw [← hrest, take_append_of_le_length hk]
  rw [keyexprJoin] at h
  split at h
  · next m len hcall =>
    obtain rfl := some.inj h
    rw [← hsame]
    refine keyexprCanonize_keeps ?_ (hk.trans hpre.length_le) hcall
    rwa [readText_of_not_overread hread]
  · cases h

/-- What a clean step makes is declared, and what is declared stays. -/
theorem Inv.make (h : w.Inv) {e : KeyexprEvent} (hclean : w.Clean e) : (w.make multicast e).2.Inv ∧
      (∀ i k, 0 < w.resources.count i k → 0 < (w.make multicast e).2.count i k) ∧
      ∀ out, (w.make multicast e).1 = some out → Declared (w.make multicast e).2 out := by
  have hkeep : ∀ i k, 0 < w.resources.count i k → 0 < w.resources.count i k := fun _ _ hpos ↦ hpos
  cases e with
  | fromText text =>
    refine ⟨h.resources, hkeep, fun out hout declaration hdeclaration ↦ ?_⟩
    obtain rfl := some.inj hout
    cases hdeclaration
  | copy key =>
    exact ⟨h.resources, hkeep, fun out hout ↦ h.declared out (mem_of_getElem? hout)⟩
  | declare key sent =>
    rw [KeyexprSession.make]
    cases hkey : w.keyexprs[key]? with
    | none => exact ⟨h.resources, hkeep, by simp⟩
    | some k =>
      dsimp only
      exact h.declareKeyexpr (mem_of_getElem? hkey) (Nat.le_refl _) (hclean k hkey) sent
  | declareNonWildPrefix key sent =>
    rw [KeyexprSession.make]
    cases hkey : w.keyexprs[key]? with
    | none => exact ⟨h.resources, hkeep, by simp⟩
    | some k =>
      dsimp only
      exact h.declareKeyexpr (mem_of_getElem? hkey) (nonWildPrefixLen_le _) (hclean k hkey)
        sent
  | concat left right =>
    refine ⟨h.resources, hkeep, fun out hout ↦ ?_⟩
    obtain ⟨l, hl, hout⟩ := bind_eq_some_iff.mp hout
    obtain ⟨text, htext, rfl⟩ := map_eq_some_iff.mp hout
    refine (h.declared l (mem_of_getElem? hl)).of_begins fun declaration _ ↦ ?_
    have htake := List.take_prefix declaration.prefixLen.toNat l.inner
    exact htake.trans (keyexprConcat_begins htext)
  | join left right behind =>
    refine ⟨h.resources, hkeep, fun out hout ↦ ?_⟩
    obtain ⟨l, hl, hout⟩ := bind_eq_some_iff.mp hout
    obtain ⟨r, hr, hout⟩ := bind_eq_some_iff.mp hout
    obtain ⟨text, htext, rfl⟩ := map_eq_some_iff.mp hout
    have hdeclared := h.declared l (mem_of_getElem? hl)
    obtain ⟨hread, hkept⟩ := hclean l r hl hr
    exact hdeclared.of_begins fun declaration hdeclaration ↦
      keyexprJoin_begins hread (hkept declaration hdeclaration)
        (hdeclared declaration hdeclaration).1 htext

/-- A clean step keeps the declared parts registered. -/
theorem Inv.next (h : w.Inv) {e : KeyexprEvent} (hclean : w.Clean e) :
    (w.step multicast e).Inv := by
  obtain ⟨hinv, hmono, hout⟩ : (w.make multicast e).2.Inv ∧ _ ∧ _ := h.make hclean
  refine ⟨hinv, fun key hkey ↦ ?_⟩
  rcases mem_append.mp hkey with hold | hnew
  · intro declaration hdeclaration
    obtain ⟨hle, hcount⟩ := h.declared key hold declaration hdeclaration
    exact ⟨hle, hmono _ _ hcount⟩
  · exact hout key (mem_toList.mp hnew)

theorem Inv.run (h : w.Inv) {before after : List KeyexprEvent}
    (hclean : w.CleanRun multicast (before ++ after)) : (w.run multicast before).Inv := by
  induction before generalizing w with
  | nil => exact h
  | cons e before ih => exact ih (h.next hclean.1) hclean.2

/-- In a run whose steps are clean, the wire expression of every key expression stands for it, at
every time. -/
theorem keyexprs_denote_of_clean (multicast : Bool) (events : List KeyexprEvent)
    (h : init.CleanRun multicast events) {before after : List KeyexprEvent}
    (hevents : events = before ++ after) {key : DeclaredKeyexpr}
    (hkey : key ∈ (init.run multicast before).keyexprs) :
    (init.run multicast before).Denotes key := by
  subst hevents
  exact (init_inv.run h).denotes hkey

/-- The part `a` of `a/*` is declared, and `/b` is appended. Then `a/**` is declared and joined with
`b`, in front of a `*`. -/
def declaredEvents : List KeyexprEvent :=
  [.fromText [97, 47, 42], .declareNonWildPrefix 0 true, .concat 1 [47, 98],
    .fromText [97, 47, 42, 42], .declare 3 true, .fromText [98], .join 4 5 [42]]

/-- No `$` is in the text, and its one `**` is in front of `b`. -/
theorem kept_declaredEvents (k : ℕ) : Kept [97, 47, 42, 42, 47, 98] k where
  repeated := by
    intro u v htext
    have hmem : dsl0 ∈ u ++ dollarStar ++ dollarStar ++ v := by simp [dollarStar]
    rw [← htext] at hmem
    exact absurd hmem (by decide)
  lone := by
    intro P X hcollapsed
    have hmem : dollarStar ∈ P ++ dollarStar :: X := by simp
    rw [← hcollapsed] at hmem
    exact absurd hmem (by decide)
  wild := by
    intro P c X hcollapsed hc
    have hchunks : collapsed [97, 47, 42, 42, 47, 98] = [[97], doubleStar, [98]] := by decide
    rw [hchunks] at hcollapsed
    rcases P with _ | ⟨p, _ | ⟨q, P⟩⟩
    · exact absurd (List.cons.inj hcollapsed).1 (by decide)
    · obtain ⟨-, hbehind⟩ := List.cons.inj (List.cons.inj hcollapsed).2
      rw [← (List.cons.inj hbehind).1] at hc
      exact absurd hc (by decide)
    · have hlength := congrArg List.length hcollapsed
      simp at hlength
      omega

theorem declaredEvents_denote :
    (init.run false declaredEvents).Denotes ⟨[97, 47, 42, 47, 98], some ⟨1, 1⟩⟩ ∧
      (init.run false declaredEvents).Denotes ⟨[97, 47, 42, 42, 47, 98], some ⟨2, 4⟩⟩ := by
  have hclean : init.CleanRun false declaredEvents := by
    refine ⟨trivial, ?_, trivial, trivial, ?_, trivial, ?_, trivial⟩
    · rintro k hk - -
      obtain rfl := some.inj hk
      refine ⟨by decide, ?_⟩
      intro key hkey
      obtain rfl : [97] = key := some.inj hkey
      exact ⟨by decide, fun _ ↦ ⟨by decide, by decide⟩⟩
    · rintro k hk - -
      obtain rfl := some.inj hk
      refine ⟨by decide, ?_⟩
      intro key hkey
      obtain rfl : [97, 47, 42, 42] = key := some.inj hkey
      exact ⟨by decide +kernel, fun _ ↦ ⟨by decide +kernel, by decide +kernel⟩⟩
    · intro l r hl hr
      obtain rfl := some.inj hl
      obtain rfl := some.inj hr
      exact ⟨by decide, fun declaration _ ↦ kept_declaredEvents _⟩
  have hevents : declaredEvents = declaredEvents ++ [] := (append_nil _).symm
  exact ⟨keyexprs_denote_of_clean false declaredEvents hclean hevents (by decide +kernel),
    keyexprs_denote_of_clean false declaredEvents hclean hevents (by decide +kernel)⟩

/-- `a/**` is declared, and joined with `*`: the canonical form begins with `a/*/`. -/
theorem keyexprs_not_denote_joined :
    ¬ ∀ (multicast : Bool) (events before after : List KeyexprEvent), events = before ++ after →
      ∀ key ∈ (init.run multicast before).keyexprs, (init.run multicast before).Denotes key := by
  intro h
  have hdenotes := h false _ [.fromText [97, 47, 42, 42], .declare 0 true, .fromText [42],
    .join 1 2 []] [] rfl ⟨[97, 47, 42, 47, 42, 42], some ⟨1, 4⟩⟩ (by decide +kernel)
  obtain ⟨expr, halias, hdenote⟩ := hdenotes
  obtain rfl : (⟨1, [42, 42], .session⟩ : WireExpr) = expr := some.inj halias
  exact absurd hdenote (by decide +kernel)

end KeyexprSession

end ZenohPico.Session
