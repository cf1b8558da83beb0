import ZenohPico.Foundations.KeyedList

/-!
The declarations of the peers (`_z_interest_process_declares`, `_z_interest_process_undeclares` and
`_z_interest_peer_disconnected` of `src/session/interest.c`).

All peers share one list, in which an entity is found by its id and type. An entity of another
peer with the same id is taken for a redeclaration, a redeclaration changes the completeness but
not the key, and a peer that disconnects leaves its entities behind. A step keeps the list at what
the peers have declared where none of this happens (`RemoteTable.Inv.next`), and only there
(`RemoteTable.Inv.clean_of_exact`).
-/

namespace ZenohPico.Session

open Foundations List Option

/-- `_Z_DECLARE_TYPE_*`: the types of the entities that are declared -/
inductive DeclareType
  | subscriber
  | queryable
  | token
deriving DecidableEq, Repr

/-- `_z_declare_data_t` -/
structure DeclareData (Peer Key : Type) where
  key : Key
  id : UInt32
  type : DeclareType
  complete : Bool
  peer : Peer
deriving DecidableEq, Repr

section Code

variable {Peer Key : Type}

/-- What `_z_declare_data_eq` compares -/
def DeclareData.tag (decl : DeclareData Peer Key) : UInt32 × DeclareType := (decl.id, decl.type)

/-- The completeness in the message of a declaration: only queryables have one. -/
def messageComplete (type : DeclareType) (complete : Bool) : Bool :=
  match type with
  | .queryable => complete
  | _ => false

/-- `_z_interest_process_declares`, with `_unsafe_z_get_declare` and `_unsafe_z_register_declare` -/
def processDeclares (remoteDeclares : List (DeclareData Peer Key)) (peer : Peer)
    (type : DeclareType) (id : UInt32) (key : Key) (complete : Bool) :
    List (DeclareData Peer Key) :=
  match remoteDeclares.find? (·.tag = (id, type)) with
  | some _ =>
    updateFirst (·.tag = (id, type)) ({ · with complete := messageComplete type complete })
      remoteDeclares
  | none => ⟨key, id, type, messageComplete type complete, peer⟩ :: remoteDeclares

/-- `_z_interest_process_undeclares`, with `_unsafe_z_get_declare` and
`_unsafe_z_unregister_declare`. It fails where the declaration is not known. -/
def processUndeclares (remoteDeclares : List (DeclareData Peer Key)) (type : DeclareType)
    (id : UInt32) : Option (List (DeclareData Peer Key)) :=
  match remoteDeclares.find? (·.tag = (id, type)) with
  | some _ => some (remoteDeclares.eraseP (·.tag = (id, type)))
  | none => none

end Code

/-! ### The peers -/

/-- What the peers have declared: the key and the completeness of their entities -/
abbrev Entities (Peer Key : Type) := Peer → DeclareType → UInt32 → Option (Key × Bool)

/-- The declarations that a session keeps, and what its peers have declared -/
structure RemoteTable (Peer Key : Type) where
  remoteDeclares : List (DeclareData Peer Key)
  entities : Entities Peer Key

/-- What a peer does. Keys are those that its wire expressions stand for. -/
inductive PeerDeclaration (Peer Key : Type)
  | declare (peer : Peer) (type : DeclareType) (id : UInt32) (key : Key) (complete : Bool)
  | undeclare (peer : Peer) (type : DeclareType) (id : UInt32)
  | disconnect (peer : Peer)
deriving DecidableEq, Repr

section Peers

variable {Peer Key : Type}

/-- Nothing has been declared. -/
def RemoteTable.init : RemoteTable Peer Key := ⟨[], fun _ _ _ ↦ none⟩

/-- The list holds one declaration for each entity, with the values of its latest declaration. -/
structure RemoteTable.Exact (w : RemoteTable Peer Key) : Prop where
  nodup : w.remoteDeclares.Nodup
  mem_iff : ∀ decl, decl ∈ w.remoteDeclares ↔
    w.entities decl.peer decl.type decl.id = some (decl.key, decl.complete)

/-- The list is exact, and finds each entity by its id and type. -/
structure RemoteTable.Inv (w : RemoteTable Peer Key) : Prop where
  exact : w.Exact
  tags : (w.remoteDeclares.map DeclareData.tag).Nodup

variable {peer : Peer} {type : DeclareType} {id : UInt32}

theorem RemoteTable.Exact.mem {w : RemoteTable Peer Key} (h : w.Exact) {e : Key × Bool}
    (hentity : w.entities peer type id = some e) :
    ⟨e.1, id, type, e.2, peer⟩ ∈ w.remoteDeclares := (h.mem_iff _).mpr hentity

theorem RemoteTable.Inv.find? {w : RemoteTable Peer Key} (h : w.Inv)
    {decl : DeclareData Peer Key} (hdecl : decl ∈ w.remoteDeclares) :
    w.remoteDeclares.find? (·.tag = (decl.id, decl.type)) = some decl :=
  find?_of_mem h.tags hdecl rfl

/-- An entity that is declared is found. -/
theorem RemoteTable.Exact.undeclare_isSome {w : RemoteTable Peer Key} (h : w.Exact)
    (hhonest : (w.entities peer type id).isSome = true) :
    (processUndeclares w.remoteDeclares type id).isSome = true := by
  obtain ⟨entity, hentity⟩ := isSome_iff_exists.mp hhonest
  rw [processUndeclares]
  split
  · rfl
  · next hnone => simpa [DeclareData.tag] using List.find?_eq_none.mp hnone _ (h.mem hentity)

theorem init_remoteInv : (RemoteTable.init : RemoteTable Peer Key).Inv where
  exact := ⟨nodup_nil, fun _ ↦ by simp [RemoteTable.init]⟩
  tags := nodup_nil

variable [DecidableEq Peer]

/-- An entity of a peer changed -/
def Entities.set (entities : Entities Peer Key) (peer : Peer) (type : DeclareType) (id : UInt32)
    (entity : Option (Key × Bool)) : Entities Peer Key :=
  fun p t i ↦ if p = peer ∧ t = type ∧ i = id then entity else entities p t i

/-- One step of a peer -/
def RemoteTable.step (w : RemoteTable Peer Key) : PeerDeclaration Peer Key → RemoteTable Peer Key
  | .declare peer type id key complete =>
    ⟨processDeclares w.remoteDeclares peer type id key complete,
      w.entities.set peer type id (some (key, messageComplete type complete))⟩
  | .undeclare peer type id =>
    ⟨(processUndeclares w.remoteDeclares type id).getD w.remoteDeclares,
      w.entities.set peer type id none⟩
  | .disconnect peer =>
    -- `_z_interest_peer_disconnected` tells the interests, and leaves the list as it is
    ⟨w.remoteDeclares, fun p t i ↦ if p = peer then none else w.entities p t i⟩

/-- An honest peer undeclares what it has declared. -/
def RemoteTable.Honest (w : RemoteTable Peer Key) : PeerDeclaration Peer Key → Prop
  | .undeclare peer type id => (w.entities peer type id).isSome
  | _ => True

/-- An entity is declared with an id that no other peer has an entity of its type under, and keeps
its key when it is redeclared. A peer disconnects when it has no entities left. -/
def RemoteTable.Clean (w : RemoteTable Peer Key) : PeerDeclaration Peer Key → Prop
  | .declare peer type id key _ => ∀ p entity, w.entities p type id = some entity →
      p = peer ∧ entity.1 = key
  | .undeclare .. => True
  | .disconnect peer => ∀ type id, w.entities peer type id = none

/-! ### One step -/

variable {w : RemoteTable Peer Key}

theorem RemoteTable.Inv.undeclare (h : w.Inv) (hhonest : w.Honest (.undeclare peer type id)) :
    (w.step (.undeclare peer type id)).Inv := by
  obtain ⟨entity, hentity⟩ := isSome_iff_exists.mp hhonest
  have hmem := h.exact.mem hentity
  have hdeclares : (w.step (.undeclare peer type id)).remoteDeclares =
      w.remoteDeclares.filter (·.tag ≠ (id, type)) := by
    rw [step, processUndeclares, h.find? hmem, getD_some, eraseP_eq_filter h.tags]
  refine ⟨⟨?_, fun decl ↦ ?_⟩, ?_⟩
  · rw [hdeclares]
    exact h.exact.nodup.filter _
  · rw [hdeclares, mem_filter, h.exact.mem_iff]
    by_cases htag : decl.tag = (id, type)
    · obtain ⟨hid, htype⟩ := Prod.mk.inj htag
      simp only [htag, step, Entities.set, htype, hid]
      by_cases hpeer : decl.peer = peer
      · simp [hpeer]
      · -- another entity of that id and type would be found in the list as well
        simp only [hpeer, false_and, if_false, ne_eq, not_true, decide_false, Bool.false_eq_true,
          and_false, false_iff]
        intro hother
        have hsame := inj_on_of_nodup_map h.tags (h.exact.mem hother) hmem rfl
        exact hpeer (congrArg DeclareData.peer hsame)
    · have hne : ¬(decl.peer = peer ∧ decl.type = type ∧ decl.id = id) :=
        fun ⟨_, htype, hid⟩ ↦ htag (by rw [DeclareData.tag, htype, hid])
      simp [htag, step, Entities.set, hne]
  · rw [hdeclares]
    exact h.tags.sublist (filter_sublist.map _)

/-- Declaring again with the id and the type of a declaration in the list changes that one. -/
theorem RemoteTable.Inv.redeclare (h : w.Inv) {found : DeclareData Peer Key}
    (hfound : found ∈ w.remoteDeclares) (htag : found.tag = (id, type)) (peer : Peer) (key : Key)
    (complete : Bool) : (w.step (.declare peer type id key complete)).remoteDeclares =
      w.remoteDeclares.map fun decl ↦ if decl.tag = (id, type) then
        { decl with complete := messageComplete type complete } else decl := by
  obtain ⟨rfl, rfl⟩ := Prod.mk.inj htag
  rw [step, processDeclares, h.find? hfound]
  exact updateFirst_eq_map h.tags

theorem RemoteTable.Inv.declare (h : w.Inv) {key : Key} {complete : Bool}
    (hclean : w.Clean (.declare peer type id key complete)) :
    (w.step (.declare peer type id key complete)).Inv := by
  have hset : ∀ decl : DeclareData Peer Key,
      (w.step (.declare peer type id key complete)).entities decl.peer decl.type decl.id =
        some (decl.key, decl.complete) ↔
      decl = ⟨key, id, type, messageComplete type complete, peer⟩ ∨
        decl.tag ≠ (id, type) ∧ decl ∈ w.remoteDeclares := by
    intro decl
    rw [h.exact.mem_iff]
    simp only [step, Entities.set]
    by_cases hsame : decl.peer = peer ∧ decl.type = type ∧ decl.id = id
    · obtain ⟨rfl, rfl, rfl⟩ := hsame
      rcases decl with ⟨dkey, did, dtype, dcomplete, dpeer⟩
      simp [DeclareData.tag, eq_comm]
    · rw [if_neg hsame]
      refine ⟨fun hdecl ↦ .inr ⟨fun htag ↦ ?_, hdecl⟩, ?_⟩
      · obtain ⟨hid, htype⟩ := Prod.mk.inj htag
        rw [hid, htype] at hdecl
        exact hsame ⟨(hclean _ _ hdecl).1, htype, hid⟩
      · rintro (rfl | ⟨-, hdecl⟩)
        · exact absurd ⟨rfl, rfl, rfl⟩ hsame
        · exact hdecl
  cases hfind : w.remoteDeclares.find? (·.tag = (id, type)) with
  | none =>
    have hdeclares : (w.step (.declare peer type id key complete)).remoteDeclares =
        ⟨key, id, type, messageComplete type complete, peer⟩ :: w.remoteDeclares := by
      rw [step, processDeclares, hfind]
    have hfresh : ∀ decl ∈ w.remoteDeclares, decl.tag ≠ (id, type) := by
      simpa using List.find?_eq_none.mp hfind
    refine ⟨⟨?_, fun decl ↦ ?_⟩, ?_⟩
    · rw [hdeclares]
      exact nodup_cons.mpr ⟨fun hmem ↦ hfresh _ hmem rfl, h.exact.nodup⟩
    · rw [hset, hdeclares, mem_cons]
      exact or_congr_right ⟨fun hmem ↦ ⟨hfresh decl hmem, hmem⟩, And.right⟩
    · rw [hdeclares, map_cons, nodup_cons]
      refine ⟨fun hmem ↦ ?_, h.tags⟩
      obtain ⟨decl, hdecl, htag⟩ := List.mem_map.mp hmem
      exact hfresh decl hdecl htag
  | some found =>
    have hfound := mem_of_find?_eq_some hfind
    have htag : found.tag = (id, type) := by simpa using List.find?_some hfind
    obtain ⟨hid, htype⟩ := Prod.mk.inj htag
    have hentity := (h.exact.mem_iff found).mp hfound
    rw [hid, htype] at hentity
    obtain ⟨hpeer, hkey⟩ := hclean _ _ hentity
    have hdeclares := h.redeclare hfound htag peer key complete
    have htags : (w.step (.declare peer type id key complete)).remoteDeclares.map DeclareData.tag =
        w.remoteDeclares.map DeclareData.tag := by
      rw [hdeclares, List.map_map]
      refine map_congr_left fun decl _ ↦ ?_
      simp only [Function.comp_apply]
      split <;> rfl
    have hnodup := h.tags
    rw [← htags] at hnodup
    refine ⟨⟨hnodup.of_map, fun decl ↦ ?_⟩, hnodup⟩
    rw [hset, hdeclares, List.mem_map]
    constructor
    · rintro ⟨before, hbefore, rfl⟩
      split
      · next hbeforeTag =>
        have hsame := inj_on_of_nodup_map h.tags hbefore hfound (hbeforeTag.trans htag.symm)
        subst hsame
        left
        rcases before with ⟨bkey, bid, btype, bcomplete, bpeer⟩
        simp_all
      · next hne => exact .inr ⟨hne, hbefore⟩
    · rintro (rfl | ⟨hne, hdecl⟩)
      · refine ⟨found, hfound, ?_⟩
        rw [if_pos htag]
        rcases found with ⟨fkey, fid, ftype, fcomplete, fpeer⟩
        simp_all
      · exact ⟨decl, hdecl, if_neg hne⟩

theorem RemoteTable.Inv.disconnect (h : w.Inv) (hclean : w.Clean (.disconnect peer)) :
    (w.step (.disconnect peer)).Inv := by
  have hentities : (w.step (.disconnect peer)).entities = w.entities := by
    funext p t i
    by_cases hp : p = peer
    · subst hp
      simp [step, hclean t i]
    · simp [step, hp]
  refine ⟨⟨h.exact.nodup, fun decl ↦ ?_⟩, h.tags⟩
  rw [hentities]
  exact h.exact.mem_iff decl

/-- A clean step of an honest peer keeps the list exact. -/
theorem RemoteTable.Inv.next (h : w.Inv) {e : PeerDeclaration Peer Key} (hhonest : w.Honest e)
    (hclean : w.Clean e) : (w.step e).Inv := by
  cases e with
  | declare peer type id key complete => exact h.declare hclean
  | undeclare peer type id => exact h.undeclare hhonest
  | disconnect peer => exact h.disconnect hclean

/-- After any other step the list is not exact. -/
theorem RemoteTable.Inv.clean_of_exact (h : w.Inv) {e : PeerDeclaration Peer Key}
    (hexact : (w.step e).Exact) : w.Clean e := by
  cases e with
  | declare peer type id key complete =>
    intro p entity hentity
    have hmem := h.exact.mem hentity
    have hdeclares := h.redeclare hmem rfl peer key complete
    have hnew : ⟨key, id, type, messageComplete type complete, peer⟩ ∈
        (w.step (.declare peer type id key complete)).remoteDeclares :=
      hexact.mem (e := (key, messageComplete type complete)) (by
        simp only [step, Entities.set, and_self, if_true])
    rw [hdeclares] at hnew
    obtain ⟨before, hbefore, heq⟩ := List.mem_map.mp hnew
    have htag : before.tag = (id, type) := by
      by_contra hne
      rw [if_neg hne] at heq
      exact hne (by rw [heq]; rfl)
    have hsame := inj_on_of_nodup_map h.tags hbefore hmem htag
    rw [if_pos htag, hsame] at heq
    exact ⟨congrArg DeclareData.peer heq, congrArg DeclareData.key heq⟩
  | undeclare peer type id => trivial
  | disconnect peer =>
    intro type id
    by_contra hne
    obtain ⟨entity, hentity⟩ := ne_none_iff_exists'.mp hne
    have hafter := (hexact.mem_iff _).mp (h.exact.mem hentity)
    simp [step] at hafter

end Peers

end ZenohPico.Session
