import Mathlib.Data.List.Induction
import ZenohPico.Foundations.KeyedList
import ZenohPico.Session.KeyexprOps

/-!
The resources of a session and of a peer (`src/session/resource.c`): key expressions that are
declared under a numeric id, on which other key expressions and declarations are based.

The session shares a resource between those who register its key, and counts them. Its ids come
from a counter of 16 bits that is never compared with the ids in use
(`localResources_exact_of_fresh`). Keys are compared up to a terminator that is common to both.
A peer chooses the ids itself. Its declarations are kept in the order in which they came, none
replaces another, and an undeclaration removes the last one only (`remoteResources_exact_iff`).
-/

open List Option

namespace ZenohPico.Session

open Foundations Keyexpr

/-! ### The tables -/

/-- `_z_resource_t` -/
structure Resource where
  key : List UInt8
  id : UInt16
  refcount : UInt16
deriving DecidableEq, Repr

/-- Whose resources: those of the session (`_Z_KEYEXPR_MAPPING_LOCAL`) or of the peer -/
inductive ResourceOwner
  | session
  | peer
deriving DecidableEq, Repr

/-- `_z_wireexpr_t`. The empty suffix is the absent one, and the id 0 is `Z_RESOURCE_ID_NONE`. -/
structure WireExpr where
  id : UInt16
  suffix : List UInt8
  mapping : ResourceOwner
deriving DecidableEq, Repr

/-- The resources of a session and of a peer, and the counter of the session -/
structure ResourceTables where
  localResources : List Resource
  remoteResources : List Resource
  resourceId : UInt16
deriving DecidableEq, Repr

namespace ResourceTables

def resources (t : ResourceTables) : ResourceOwner → List Resource
  | .session => t.localResources
  | .peer => t.remoteResources

def setResources (t : ResourceTables) (resources : List Resource) : ResourceOwner → ResourceTables
  | .session => { t with localResources := resources }
  | .peer => { t with remoteResources := resources }

end ResourceTables

/-! ### The operations -/

/-- `_z_get_resource_by_id_inner` -/
def getResourceById (resources : List Resource) (id : UInt16) : Option Resource :=
  resources.find? (·.id = id)

/-- `_z_get_resource_by_key_inner` -/
def getResourceByKey (resources : List Resource) (key : List UInt8) : Option Resource :=
  resources.find? (sameKeyexpr ·.key key)

/-- `_z_get_keyexpr_from_wireexpr_inner` -/
def getKeyexprFromWireexprInner (resources : List Resource) (expr : WireExpr) :
    Option (List UInt8) :=
  if expr.id = 0 then some expr.suffix
  else (getResourceById resources expr.id).map (·.key ++ expr.suffix)

/-- `_z_get_keyexpr_from_wireexpr`. The owner is that of the resources that are not local. -/
def getKeyexprFromWireexpr (t : ResourceTables) (expr : WireExpr) (owner : ResourceOwner) :
    Option (List UInt8) :=
  if expr.suffix ≠ [] ∨ expr.id ≠ 0 then
    getKeyexprFromWireexprInner
      (t.resources (if expr.mapping = .session then .session else owner)) expr
  else none

/-- A resource is shared once more. -/
def Resource.share (res : Resource) : Resource := { res with refcount := res.refcount + 1 }

/-- A resource is shared once less. -/
def Resource.unshare (res : Resource) : Resource := { res with refcount := res.refcount - 1 }

/-- The end of `_z_register_resource_inner`, where the key is known: one without an id shares the
resource of that key or takes the next id. -/
def registerKey (t : ResourceTables) (newKey : List UInt8) (id : UInt16) (owner : ResourceOwner) :
    UInt16 × ResourceTables :=
  let resources := t.resources owner
  if id = 0 then
    match getResourceByKey resources newKey with
    | some res =>
      (res.id,
        t.setResources (updateFirst (sameKeyexpr ·.key newKey) Resource.share resources) owner)
    | none =>
      (t.resourceId, { t with resourceId := t.resourceId + 1 }.setResources
        (⟨newKey, t.resourceId, 1⟩ :: resources) owner)
  else (id, t.setResources (⟨newKey, id, 1⟩ :: resources) owner)

/-- `_z_register_resource_inner`, with the id that it gives out. It fails where the expression is
based on an unknown resource. -/
def registerResource (t : ResourceTables) (expr : WireExpr) (id : UInt16) (owner : ResourceOwner) :
    Option (UInt16 × ResourceTables) :=
  if expr.id ≠ 0 then
    match getResourceById (t.resources expr.mapping) expr.id with
    | none => none
    | some res =>
      if expr.suffix ≠ [] then some (registerKey t (res.key ++ expr.suffix) id owner)
      else if id = 0 ∧ owner = expr.mapping then
        some (res.id, t.setResources
          (updateFirst (·.id = expr.id) Resource.share (t.resources owner)) owner)
      else some (registerKey t res.key id owner)
  else some (registerKey t expr.suffix id owner)

/-- What `_z_unregister_resource` returns -/
inductive UnregisterResult
  | unregistered
  | positiveRefCount
  | keyexprUnknown
deriving DecidableEq, Repr

/-- `_z_unregister_resource` -/
def unregisterResource (t : ResourceTables) (id : UInt16) (owner : ResourceOwner) :
    UnregisterResult × ResourceTables :=
  match getResourceById (t.resources owner) id with
  | none => (.keyexprUnknown, t)
  | some res =>
    if res.unshare.refcount = 0 then
      (.unregistered, t.setResources ((t.resources owner).eraseP (·.id = id)) owner)
    else
      (.positiveRefCount,
        t.setResources (updateFirst (·.id = id) Resource.unshare (t.resources owner)) owner)

variable {resources : List Resource} {id : UInt16} {res : Resource}

theorem getResourceById_some (h : getResourceById resources id = some res) :
    res ∈ resources ∧ res.id = id :=
  ⟨mem_of_find?_eq_some h, by simpa using List.find?_some h⟩

theorem getResourceById_none (h : getResourceById resources id = none) :
    ∀ res ∈ resources, res.id ≠ id := by
  simpa [getResourceById] using h

/-! ### The resources of the session -/

/-- The resources of a session, and how often each has been registered more than unregistered -/
structure LocalResources where
  tables : ResourceTables
  count : UInt16 → List UInt8 → ℕ

/-- What a session does with its resources -/
inductive LocalResourceEvent
  | register (id : UInt16) (suffix : List UInt8)
  | unregister (id : UInt16)
deriving DecidableEq, Repr

namespace LocalResources

/-- Nothing has been registered. The first id is 1. -/
def init : LocalResources := ⟨⟨[], [], 1⟩, fun _ _ ↦ 0⟩

/-- The key that is registered: `none` where it is based on an unknown resource -/
def newKey (w : LocalResources) (id : UInt16) (suffix : List UInt8) : Option (List UInt8) :=
  getKeyexprFromWireexprInner w.tables.localResources ⟨id, suffix, .session⟩

/-- One step of a session -/
def step (w : LocalResources) : LocalResourceEvent → LocalResources
  | .register id suffix =>
    match w.newKey id suffix, registerResource w.tables ⟨id, suffix, .session⟩ 0 .session with
    | some key, some (out, tables) =>
      ⟨tables, fun i k ↦ if i = out ∧ k = key then w.count i k + 1 else w.count i k⟩
    | _, _ => w
  | .unregister id =>
    ⟨(unregisterResource w.tables id .session).2,
      fun i k ↦ if i = id then w.count i k - 1 else w.count i k⟩

/-- A run of a session -/
def run (w : LocalResources) (events : List LocalResourceEvent) : LocalResources :=
  events.foldl step w

/-- Ids are in use once, and none of them is 0. Each key has one id. A resource is there as long as
it has been registered more often than unregistered. -/
structure Exact (w : LocalResources) : Prop where
  ids : (w.tables.localResources.map Resource.id).Nodup
  ids_ne_zero : ∀ res ∈ w.tables.localResources, res.id ≠ 0
  keys : (w.tables.localResources.map Resource.key).Nodup
  registered_iff : ∀ id key,
    (∃ res ∈ w.tables.localResources, res.id = id ∧ res.key = key) ↔ 0 < w.count id key

/-- A key is taken for one that is registered when it is the same, and then its resource is not
shared 65535 times yet. A key that is new finds an id that is not 0 and not in use. -/
def Fresh (w : LocalResources) : LocalResourceEvent → Prop
  | .register id suffix => ∀ key, w.newKey id suffix = some key →
    (∀ res ∈ w.tables.localResources, sameKeyexpr res.key key = true →
      res.key = key ∧ res.refcount ≠ 65535) ∧
      ((∀ res ∈ w.tables.localResources, res.key ≠ key) → w.tables.resourceId ≠ 0 ∧
        ∀ res ∈ w.tables.localResources, res.id ≠ w.tables.resourceId)
  | .unregister _ => True

/-- Every step of a run is fresh. -/
def FreshRun (w : LocalResources) : List LocalResourceEvent → Prop
  | [] => True
  | e :: events => w.Fresh e ∧ FreshRun (w.step e) events

/-- Ids and keys are in use once, and the reference counters are what is counted. -/
structure Inv (w : LocalResources) : Prop where
  ids : (w.tables.localResources.map Resource.id).Nodup
  ids_ne_zero : ∀ res ∈ w.tables.localResources, res.id ≠ 0
  keys : (w.tables.localResources.map Resource.key).Nodup
  refcount_pos : ∀ res ∈ w.tables.localResources, 0 < res.refcount.toNat
  count_eq : ∀ res ∈ w.tables.localResources, w.count res.id res.key = res.refcount.toNat
  count_eq_zero : ∀ id key, (∀ res ∈ w.tables.localResources, res.id = id → res.key ≠ key) →
    w.count id key = 0

/-! ### One step of the session -/

variable {w : LocalResources}

theorem init_inv : init.Inv := by
  constructor <;> simp [init]

/-- The elements of a list with one of them changed -/
theorem forall_mem_map_ite {res : Resource} {f : Resource → Resource} {resources : List Resource}
    (hres : res ∈ resources) {P : Resource → Prop} :
    (∀ r ∈ resources.map (fun r ↦ if r = res then f r else r), P r) ↔
      P (f res) ∧ ∀ r ∈ resources, r ≠ res → P r := by
  simp only [List.forall_mem_map]
  constructor
  · intro h
    refine ⟨by simpa using h res hres, fun r hr hne ↦ by simpa [hne] using h r hr⟩
  · rintro ⟨hself, hothers⟩ r hr
    by_cases hrr : r = res
    · simpa [hrr] using hself
    · simpa [hrr] using hothers r hr hrr

theorem Inv.eq_of_id (h : w.Inv) {r : Resource} (hr : r ∈ w.tables.localResources)
    (hres : res ∈ w.tables.localResources) (hid : r.id = res.id) : r = res :=
  inj_on_of_nodup_map h.ids hr hres hid

variable {remote : List Resource} {counter : UInt16}

/-- A resource whose counter changes with the count -/
theorem Inv.recount (h : w.Inv) (hres : res ∈ w.tables.localResources) {f : Resource → Resource}
    (hid : ∀ r, (f r).id = r.id) (hkey : ∀ r, (f r).key = r.key) (hpos : 0 < (f res).refcount.toNat)
    {count : UInt16 → List UInt8 → ℕ} (hcount : count res.id res.key = (f res).refcount.toNat)
    (hothers : ∀ id key, ¬(id = res.id ∧ key = res.key) → count id key = w.count id key) :
    Inv ⟨⟨w.tables.localResources.map fun r ↦ if r = res then f r else r, remote, counter⟩,
      count⟩ := by
  have hmap : ∀ {α : Type} (g : Resource → α), (∀ r, g (f r) = g r) →
      (w.tables.localResources.map fun r ↦ if r = res then f r else r).map g =
        w.tables.localResources.map g := by
    intro α g hg
    rw [List.map_map]
    refine map_congr_left fun r _ ↦ ?_
    simp only [Function.comp_apply]
    split
    · exact hg r
    · rfl
  refine ⟨?_, ?_, ?_, ?_, ?_, ?_⟩
  · rw [hmap _ hid]
    exact h.ids
  · rw [forall_mem_map_ite hres]
    exact ⟨hid res ▸ h.ids_ne_zero res hres, fun r hr _ ↦ h.ids_ne_zero r hr⟩
  · rw [hmap _ hkey]
    exact h.keys
  · rw [forall_mem_map_ite hres]
    exact ⟨hpos, fun r hr _ ↦ h.refcount_pos r hr⟩
  · rw [forall_mem_map_ite hres, hid, hkey]
    refine ⟨hcount, fun r hr hne ↦ ?_⟩
    exact (hothers _ _ fun hsame ↦ hne (h.eq_of_id hr hres hsame.1)).trans (h.count_eq r hr)
  · intro id key hnone
    rw [forall_mem_map_ite hres, hid, hkey] at hnone
    by_cases hsame : id = res.id ∧ key = res.key
    · exact absurd hsame.2.symm (hnone.1 hsame.1.symm)
    · refine (hothers id key hsame).trans (h.count_eq_zero id key fun r hr hr' ↦ ?_)
      by_cases hrr : r = res
      · subst hrr
        exact fun hk ↦ hsame ⟨hr'.symm, hk.symm⟩
      · exact hnone.2 r hr hrr hr'

theorem share_toNat (h : res.refcount ≠ 65535) :
    res.share.refcount.toNat = res.refcount.toNat + 1 := by
  have hlt : res.refcount.toNat ≠ 65535 := fun heq ↦ h (UInt16.toNat.inj heq)
  have := res.refcount.toNat_lt
  rw [Resource.share, UInt16.toNat_add]
  simp
  omega

/-- A resource is registered once more. -/
theorem Inv.share (h : w.Inv) (hres : res ∈ w.tables.localResources)
    (hshared : res.refcount ≠ 65535) :
    Inv ⟨⟨w.tables.localResources.map fun r ↦ if r = res then r.share else r, remote, counter⟩,
      fun i k ↦ if i = res.id ∧ k = res.key then w.count i k + 1 else w.count i k⟩ := by
  refine h.recount (f := Resource.share) hres (fun _ ↦ rfl) (fun _ ↦ rfl) ?_ ?_
    fun id key hne ↦ if_neg hne
  · rw [share_toNat hshared]
    exact Nat.succ_pos _
  · rw [if_pos ⟨rfl, rfl⟩, h.count_eq res hres, share_toNat hshared]

variable {key suffix : List UInt8}

/-- A resource is registered under an id of its own. -/
theorem Inv.push (h : w.Inv) (hid : id ≠ 0) (hids : ∀ res ∈ w.tables.localResources, res.id ≠ id)
    (hkeys : ∀ res ∈ w.tables.localResources, res.key ≠ key) :
    Inv ⟨⟨⟨key, id, 1⟩ :: w.tables.localResources, remote, counter⟩,
      fun i k ↦ if i = id ∧ k = key then w.count i k + 1 else w.count i k⟩ := by
  have hzero := h.count_eq_zero id key fun res hres hsame ↦ absurd hsame (hids res hres)
  refine ⟨?_, ?_, ?_, ?_, ?_, ?_⟩
  · simpa using ⟨fun res hres ↦ hids res hres, h.ids⟩
  · simpa using ⟨hid, h.ids_ne_zero⟩
  · simpa using ⟨fun res hres ↦ hkeys res hres, h.keys⟩
  · simpa using h.refcount_pos
  · refine forall_mem_cons.mpr ⟨by simp [hzero], fun res hres ↦ ?_⟩
    simp only [hids res hres, false_and, if_false, h.count_eq res hres]
  · intro i k hnone
    obtain ⟨hnew, hold⟩ := forall_mem_cons.mp hnone
    have hne : ¬(i = id ∧ k = key) := fun hsame ↦ hnew hsame.1.symm hsame.2.symm
    simp only [hne, if_false, h.count_eq_zero i k hold]

theorem find?_sameKeyexpr (h : ∀ res ∈ resources, sameKeyexpr res.key key = true → res.key = key) :
    resources.find? (sameKeyexpr ·.key key) = resources.find? (·.key = key) := by
  induction resources with
  | nil => rfl
  | cons res resources ih =>
    obtain ⟨hres, hrest⟩ := forall_mem_cons.mp h
    by_cases hkey : res.key = key
    · simp [hkey, sameKeyexpr_refl]
    · simp [hkey, mt hres hkey, ih hrest]

theorem updateFirst_sameKeyexpr
    (h : ∀ res ∈ resources, sameKeyexpr res.key key = true → res.key = key)
    (f : Resource → Resource) :
    updateFirst (sameKeyexpr ·.key key) f resources = updateFirst (·.key = key) f resources := by
  induction resources with
  | nil => rfl
  | cons res resources ih =>
    obtain ⟨hres, hrest⟩ := forall_mem_cons.mp h
    by_cases hkey : res.key = key
    · simp [updateFirst, hkey, sameKeyexpr_refl]
    · simp [updateFirst, hkey, mt hres hkey, ih hrest]

/-- Registering a key that is there shares its resource. -/
theorem Inv.registerKey_of_mem (h : w.Inv) (hres : res ∈ w.tables.localResources)
    (hsame : ∀ r ∈ w.tables.localResources, sameKeyexpr r.key res.key = true → r.key = res.key) :
    registerKey w.tables res.key 0 .session =
      (res.id, ⟨w.tables.localResources.map fun r ↦ if r = res then r.share else r,
        w.tables.remoteResources, w.tables.resourceId⟩) := by
  have hfind : getResourceByKey w.tables.localResources res.key = some res :=
    (find?_sameKeyexpr hsame).trans (find?_of_mem h.keys hres rfl)
  simp only [registerKey, ResourceTables.resources, if_true, hfind, ResourceTables.setResources,
    updateFirst_sameKeyexpr hsame, updateFirst_eq_map_of_mem h.keys hres rfl]

/-- Registering a new key takes the next id. -/
theorem registerKey_of_new {t : ResourceTables}
    (hnew : ∀ res ∈ t.localResources, sameKeyexpr res.key key = false) :
    registerKey t key 0 .session =
      (t.resourceId, ⟨⟨key, t.resourceId, 1⟩ :: t.localResources, t.remoteResources,
        t.resourceId + 1⟩) := by
  have hfind : getResourceByKey t.localResources key = none := by
    simpa [getResourceByKey] using hnew
  simp only [registerKey, ResourceTables.resources, if_true, hfind, ResourceTables.setResources]

/-- A registration comes down to its key, also where it only names a resource. -/
theorem Inv.registerResource_eq (h : w.Inv) (hkey : w.newKey id suffix = some key)
    (hsame : ∀ r ∈ w.tables.localResources, sameKeyexpr r.key key = true → r.key = key) :
    registerResource w.tables ⟨id, suffix, .session⟩ 0 .session =
      some (registerKey w.tables key 0 .session) := by
  rw [newKey, getKeyexprFromWireexprInner] at hkey
  rw [registerResource]
  by_cases hid : id = 0
  · obtain rfl : suffix = key := by simpa [hid] using hkey
    simp [hid]
  · rw [if_neg hid] at hkey
    obtain ⟨res, hfind, rfl⟩ := map_eq_some_iff.mp hkey
    have hres := getResourceById_some hfind
    dsimp only at hfind hres
    simp only [ne_eq, hid, not_false_eq_true, if_true, ResourceTables.resources, hfind]
    by_cases hsuffix : suffix = []
    · subst hsuffix
      rw [append_nil] at hsame ⊢
      rw [h.registerKey_of_mem hres.1 hsame]
      simp [ResourceTables.setResources, updateFirst_eq_map_of_mem h.ids hres.1 hres.2]
    · simp [hsuffix]

theorem Inv.register (h : w.Inv) (hfresh : w.Fresh (.register id suffix)) :
    (w.step (.register id suffix)).Inv := by
  rw [step]
  cases hkey : w.newKey id suffix with
  | none => exact h
  | some key =>
    obtain ⟨hshared, hnew⟩ := hfresh key hkey
    have hsame : ∀ r ∈ w.tables.localResources, sameKeyexpr r.key key = true → r.key = key :=
      fun r hr hr' ↦ (hshared r hr hr').1
    rw [h.registerResource_eq hkey hsame]
    by_cases hmem : ∃ res ∈ w.tables.localResources, res.key = key
    · obtain ⟨res, hres, rfl⟩ := hmem
      rw [h.registerKey_of_mem hres hsame]
      exact h.share hres (hshared res hres (sameKeyexpr_refl _)).2
    · have hnone : ∀ res ∈ w.tables.localResources, res.key ≠ key := by simpa using hmem
      rw [registerKey_of_new fun r hr ↦ by simpa using mt (hsame r hr) (hnone r hr)]
      exact h.push (hnew hnone).1 (hnew hnone).2 hnone

theorem Inv.unregister (h : w.Inv) (id : UInt16) : (w.step (.unregister id)).Inv := by
  rw [step, unregisterResource]
  cases hfind : getResourceById (w.tables.resources .session) id with
  | none =>
    have hnone := getResourceById_none hfind
    have hcount : (fun i k ↦ if i = id then w.count i k - 1 else w.count i k) = w.count := by
      funext i k
      split
      · next hid =>
        rw [h.count_eq_zero i k fun res hres hsame ↦ absurd (hsame.trans hid) (hnone res hres)]
      · rfl
    rw [hcount]
    exact h
  | some res =>
    obtain ⟨hres, rfl⟩ := getResourceById_some hfind
    have hres : res ∈ w.tables.localResources := hres
    have hpos := h.refcount_pos res hres
    have hunshare : res.unshare.refcount.toNat = res.refcount.toNat - 1 :=
      UInt16.toNat_sub_of_le _ _ (UInt16.le_iff_toNat_le.mpr hpos)
    -- no other key is counted under the id
    have hzero : ∀ k, k ≠ res.key → w.count res.id k = 0 := fun k hk ↦
      h.count_eq_zero res.id k fun r hr hid ↦ (h.eq_of_id hr hres hid) ▸ hk.symm
    have hrest : ∀ i k, ¬(i = res.id ∧ k = res.key) →
        (if i = res.id then w.count i k - 1 else w.count i k) = w.count i k := by
      intro i k hne
      split
      · next hid =>
        subst hid
        rw [hzero k fun hk ↦ hne ⟨rfl, hk⟩]
      · rfl
    dsimp only
    split
    · next hlast =>
      have hone : res.refcount.toNat - 1 = 0 := by rw [← hunshare, hlast]; rfl
      simp only [ResourceTables.resources, ResourceTables.setResources,
        eraseP_eq_filter_of_mem h.ids hres rfl]
      refine ⟨h.ids.sublist (filter_sublist.map _), ?_,
        h.keys.sublist (filter_sublist.map _), ?_, ?_, ?_⟩
      · exact fun r hr ↦ h.ids_ne_zero r (mem_of_mem_filter hr)
      · exact fun r hr ↦ h.refcount_pos r (mem_of_mem_filter hr)
      · intro r hr
        obtain ⟨hr, hne⟩ := mem_filter.mp hr
        refine (hrest _ _ fun hsame ↦ ?_).trans (h.count_eq r hr)
        simp [h.eq_of_id hr hres hsame.1] at hne
      · intro i k hnone
        by_cases hsame : i = res.id ∧ k = res.key
        · obtain ⟨rfl, rfl⟩ := hsame
          simp [h.count_eq res hres, hone]
        · refine (hrest i k hsame).trans (h.count_eq_zero i k fun r hr hid ↦ ?_)
          by_cases hrr : r = res
          · subst hrr
            exact fun hk ↦ hsame ⟨hid.symm, hk.symm⟩
          · exact hnone r (mem_filter.mpr ⟨hr, by simpa using hrr⟩) hid
    · next hmore =>
      simp only [ResourceTables.resources, ResourceTables.setResources,
        updateFirst_eq_map_of_mem h.ids hres rfl]
      refine h.recount (f := Resource.unshare) hres (fun _ ↦ rfl) (fun _ ↦ rfl) ?_ ?_ hrest
      · exact Nat.pos_of_ne_zero fun hz ↦ hmore (UInt16.toNat.inj hz)
      · simp [h.count_eq res hres, hunshare]

theorem Inv.next (h : w.Inv) {e : LocalResourceEvent} (hfresh : w.Fresh e) : (w.step e).Inv := by
  cases e with
  | register id suffix => exact h.register hfresh
  | unregister id => exact h.unregister id

/-! ### Runs of the session -/

theorem Inv.exact (h : w.Inv) : w.Exact := by
  refine ⟨h.ids, h.ids_ne_zero, h.keys, fun id key ↦ ⟨?_, fun hpos ↦ ?_⟩⟩
  · rintro ⟨res, hres, rfl, rfl⟩
    rw [h.count_eq res hres]
    exact h.refcount_pos res hres
  · by_contra hnone
    have := h.count_eq_zero id key fun res hres hid hkey ↦ hnone ⟨res, hres, hid, hkey⟩
    omega

theorem run_append (before after : List LocalResourceEvent) :
    w.run (before ++ after) = (w.run before).run after :=
  foldl_append

theorem Inv.run (h : w.Inv) {before after : List LocalResourceEvent}
    (hfresh : w.FreshRun (before ++ after)) : (w.run before).Inv := by
  induction before generalizing w with
  | nil => exact h
  | cons e before ih => exact ih (h.next hfresh.1) hfresh.2

/-- In a run whose steps are fresh, the resources of the session are what is registered, at every
time. -/
theorem localResources_exact_of_fresh (events : List LocalResourceEvent)
    (h : init.FreshRun events) {before after : List LocalResourceEvent}
    (hevents : events = before ++ after) : (init.run before).Exact := by
  subst hevents
  exact (init_inv.run h).exact

/-- A key is registered, another one based on it, the first one again, and that is unregistered
once. -/
def sharedResources : List LocalResourceEvent :=
  [.register 0 [97], .register 1 [98], .register 1 [], .unregister 1]

theorem sharedResources_exact : (init.run sharedResources).Exact := by
  refine localResources_exact_of_fresh sharedResources ⟨?_, ?_, ?_, trivial, trivial⟩
    (append_nil _).symm
  · intro key hkey
    obtain rfl : [97] = key := some.inj hkey
    exact ⟨by decide, fun _ ↦ ⟨by decide, by decide⟩⟩
  · intro key hkey
    obtain rfl : [97, 98] = key := some.inj hkey
    exact ⟨by decide, fun _ ↦ ⟨by decide, by decide⟩⟩
  · intro key hkey
    obtain rfl : [97] = key := some.inj hkey
    exact ⟨by decide, fun hnew ↦ absurd rfl (hnew ⟨[97], 1, 1⟩ (by decide))⟩

/-- A key is registered and unregistered again and again. -/
def registerRounds (n : ℕ) : List LocalResourceEvent :=
  (List.range n).flatMap fun k ↦ [.register 0 [97], .unregister (1 + UInt16.ofNat k)]

theorem run_round (c : UInt16) : run ⟨⟨[], [], c⟩, fun _ _ ↦ 0⟩ [.register 0 [97], .unregister c] =
      ⟨⟨[], [], c + 1⟩, fun _ _ ↦ 0⟩ := by
  simp only [run, foldl_cons, foldl_nil, step, newKey, getKeyexprFromWireexprInner,
    registerResource, registerKey, ResourceTables.resources, ResourceTables.setResources,
    getResourceByKey, unregisterResource, getResourceById, Resource.unshare]
  simp
  funext i k
  grind

theorem run_registerRounds (n : ℕ) :
    init.run (registerRounds n) = ⟨⟨[], [], 1 + UInt16.ofNat n⟩, fun _ _ ↦ 0⟩ := by
  induction n with
  | zero => rfl
  | succ n ih =>
    have hcounter : 1 + UInt16.ofNat (n + 1) = 1 + UInt16.ofNat n + 1 := by
      rw [UInt16.ofNat_add, ← UInt16.add_assoc]
      rfl
    rw [registerRounds, range_succ, flatMap_append, ← registerRounds, run_append, ih, hcounter]
    exact run_round _

/-- The counter comes round to the id that stands for none. -/
theorem localResources_not_exact_wrapped :
    ¬ ∀ events before after : List LocalResourceEvent, events = before ++ after →
      (init.run before).Exact := by
  intro h
  have hwrap : ∀ n, 1 + UInt16.ofNat n = 0 →
      ¬(init.run (registerRounds n ++ [.register 0 [97]])).Exact := by
    intro n hn hexact
    rw [run_append, run_registerRounds, hn] at hexact
    exact hexact.ids_ne_zero ⟨[97], 0, 1⟩ (mem_singleton.mpr rfl) rfl
  exact hwrap 65535 (by decide) (h _ _ [] (append_nil _).symm)

end LocalResources

/-! ### The resources of a peer -/

/-- The resources of a peer, and what it has declared under each id -/
structure RemoteResources where
  tables : ResourceTables
  declared : UInt16 → Option (List UInt8)

/-- What a peer does with its resources: `_Z_DECL_KEXPR` and `_Z_UNDECL_KEXPR` -/
inductive KexprDeclaration
  | declare (id : UInt16) (scope : UInt16) (suffix : List UInt8)
  | undeclare (id : UInt16)
deriving DecidableEq, Repr

namespace RemoteResources

/-- What a wire expression of a peer stands for -/
def denote (declared : UInt16 → Option (List UInt8)) (id : UInt16) (suffix : List UInt8) :
    Option (List UInt8) :=
  if id = 0 then some suffix else (declared id).map (· ++ suffix)

/-- A peer that has declared nothing -/
def init (localResources : List Resource) (resourceId : UInt16) : RemoteResources :=
  ⟨⟨localResources, [], resourceId⟩, fun _ ↦ none⟩

/-- One step of a peer: `_z_handle_declare_inner`. A declaration that is based on an unknown id
fails, and declares nothing. -/
def step (w : RemoteResources) : KexprDeclaration → RemoteResources
  | .declare id scope suffix =>
    ⟨((registerResource w.tables ⟨scope, suffix, .peer⟩ id .peer).map Prod.snd).getD w.tables,
      match denote w.declared scope suffix with
      | some key => fun i ↦ if i = id then some key else w.declared i
      | none => w.declared⟩
  | .undeclare id =>
    ⟨(unregisterResource w.tables id .peer).2, fun i ↦ if i = id then none else w.declared i⟩

/-- A run of a peer -/
def run (w : RemoteResources) (events : List KexprDeclaration) : RemoteResources :=
  events.foldl step w

/-- Wire expressions of a peer are resolved to what they stand for, and fail where that is not
known. -/
def Exact (w : RemoteResources) : Prop :=
  ∀ id suffix, suffix ≠ [] ∨ id ≠ 0 →
    getKeyexprFromWireexpr w.tables ⟨id, suffix, .peer⟩ .peer = denote w.declared id suffix

/-- A declaration without an id is of a key that is known, or gets no id from the session either.
An id is undeclared when it is in the table once at most, and not shared. -/
def Clean (w : RemoteResources) : KexprDeclaration → Prop
  | .declare id scope suffix => id = 0 → ∀ key, denote w.declared scope suffix = some key →
      w.tables.resourceId = 0 ∨ ∃ res ∈ w.tables.remoteResources, sameKeyexpr res.key key = true
  | .undeclare id => id ≠ 0 →
      w.tables.remoteResources.countP (·.id = id) ≤ 1 ∧
        ∀ res, getResourceById w.tables.remoteResources id = some res → res.refcount = 1

/-- Every step of a run is clean. -/
def CleanRun (w : RemoteResources) : List KexprDeclaration → Prop
  | [] => True
  | e :: events => w.Clean e ∧ CleanRun (w.step e) events

/-- The key of a resource -/
def keyOf (resources : List Resource) (id : UInt16) : Option (List UInt8) :=
  (getResourceById resources id).map (·.key)

theorem keyOf_cons (res : Resource) (resources : List Resource) (id : UInt16) :
    keyOf (res :: resources) id = if res.id = id then some res.key else keyOf resources id := by
  by_cases h : res.id = id <;> simp [keyOf, getResourceById, h]

theorem keyOf_share (p : Resource → Bool) (resources : List Resource) (id : UInt16) :
    keyOf (updateFirst p Resource.share resources) id = keyOf resources id :=
  map_find?_updateFirst (f := Resource.share) (g := Resource.id) (k := Resource.key) (fun _ ↦ rfl)
    (fun _ ↦ rfl) id resources

theorem keyOf_unshare (p : Resource → Bool) (resources : List Resource) (id : UInt16) :
    keyOf (updateFirst p Resource.unshare resources) id = keyOf resources id :=
  map_find?_updateFirst (f := Resource.unshare) (g := Resource.id) (k := Resource.key) (fun _ ↦ rfl)
    (fun _ ↦ rfl) id resources

variable {w : RemoteResources}

/-- Wire expressions are resolved by the keys of the ids. -/
theorem exact_iff : w.Exact ↔ ∀ id, id ≠ 0 → keyOf w.tables.remoteResources id = w.declared id := by
  constructor
  · intro h id hid
    have hid' := h id [] (.inr hid)
    simpa [getKeyexprFromWireexpr, getKeyexprFromWireexprInner, denote, hid, keyOf,
      ResourceTables.resources] using hid'
  · intro h id suffix hcheck
    by_cases hid : id = 0
    · have hsuffix : suffix ≠ [] := hcheck.resolve_right (not_not.mpr hid)
      simp [getKeyexprFromWireexpr, getKeyexprFromWireexprInner, denote, hid, hsuffix]
    · have hkey := h id hid
      simp [getKeyexprFromWireexpr, getKeyexprFromWireexprInner, denote, hid, ← hkey, keyOf,
        ResourceTables.resources, Function.comp_def]

/-- What a declaration does to the keys of the ids, where its key is known -/
theorem registerKey_peer (t : ResourceTables) (key : List UInt8) (id : UInt16) :
    ∀ i, keyOf (registerKey t key id .peer).2.remoteResources i =
      if id = 0 then
        if (∃ res ∈ t.remoteResources, sameKeyexpr res.key key = true) then keyOf t.remoteResources i
        else if t.resourceId = i then some key else keyOf t.remoteResources i
      else if id = i then some key else keyOf t.remoteResources i := by
  intro i
  by_cases hid : id = 0
  · cases hfind : getResourceByKey t.remoteResources key with
    | none =>
      have hnew : ¬∃ res ∈ t.remoteResources, sameKeyexpr res.key key = true := by
        simpa [getResourceByKey] using hfind
      simp [registerKey, ResourceTables.resources, hid, hfind, ResourceTables.setResources, hnew,
        keyOf_cons]
    | some res =>
      have hmem : ∃ res ∈ t.remoteResources, sameKeyexpr res.key key = true :=
        List.find?_isSome.mp (by rw [← getResourceByKey, hfind]; rfl)
      simp [registerKey, ResourceTables.resources, hid, hfind, ResourceTables.setResources, hmem,
        keyOf_share]
  · simp [registerKey, hid, ResourceTables.setResources, ResourceTables.resources, keyOf_cons]

/-- A declaration that is based on a known id comes down to its key, and any other one fails. -/
theorem Exact.keyOf_register (h : w.Exact) (id scope : UInt16) (suffix : List UInt8) (i : UInt16) :
    keyOf ((registerResource w.tables ⟨scope, suffix, .peer⟩ id .peer).map Prod.snd |>.getD
      w.tables).remoteResources i =
    match denote w.declared scope suffix with
    | none => keyOf w.tables.remoteResources i
    | some key => keyOf (registerKey w.tables key id .peer).2.remoteResources i := by
  rw [registerResource, denote]
  by_cases hscope : scope = 0
  · simp [hscope]
  · have hdeclared := exact_iff.mp h scope hscope
    rw [keyOf] at hdeclared
    rw [if_pos hscope, if_neg hscope, ← hdeclared]
    dsimp only [ResourceTables.resources]
    cases hfind : getResourceById w.tables.remoteResources scope with
    | none => rfl
    | some res =>
      have hmem := getResourceById_some hfind
      by_cases hsuffix : suffix = []
      · subst hsuffix
        by_cases hid : id = 0
        · -- the declaration names a resource, which is shared
          have hkey : ∃ r ∈ w.tables.remoteResources, sameKeyexpr r.key res.key = true :=
            ⟨res, hmem.1, sameKeyexpr_refl _⟩
          simp [registerKey_peer, hid, hkey, ResourceTables.setResources, keyOf_share]
        · simp [hid]
      · simp [hsuffix]

/-- After a declaration wire expressions are resolved exactly when it is clean. -/
theorem Exact.declare_iff (h : w.Exact) (id scope : UInt16) (suffix : List UInt8) :
    (w.step (.declare id scope suffix)).Exact ↔ w.Clean (.declare id scope suffix) := by
  have hkeys := exact_iff.mp h
  rw [exact_iff, Clean, step]
  simp only [h.keyOf_register]
  cases hdenote : denote w.declared scope suffix with
  | none => simpa using hkeys
  | some key =>
    simp only [registerKey_peer, some.injEq, forall_eq']
    by_cases hid : id = 0
    · simp only [hid, if_true, forall_const]
      by_cases hmem : ∃ res ∈ w.tables.remoteResources, sameKeyexpr res.key key = true
      · simp only [hmem, if_true, or_true, iff_true]
        intro i hi
        rw [if_neg hi, hkeys i hi]
      · simp only [hmem, if_false, or_false]
        constructor
        · intro hexact
          by_contra hcounter
          have hdeclared := hexact _ hcounter
          rw [if_pos rfl, if_neg hcounter, ← hkeys _ hcounter] at hdeclared
          obtain ⟨res, hfind, hkey⟩ := map_eq_some_iff.mp hdeclared.symm
          exact hmem ⟨res, (getResourceById_some hfind).1, hkey ▸ sameKeyexpr_refl _⟩
        · intro hcounter i hi
          rw [hcounter, if_neg (Ne.symm hi), if_neg hi, hkeys i hi]
    · simp only [hid, if_false, false_imp_iff, iff_true]
      intro i hi
      rw [hkeys i hi]
      exact if_congr eq_comm rfl rfl

/-- After an undeclaration wire expressions are resolved exactly when it is clean. -/
theorem Exact.undeclare_iff (h : w.Exact) (id : UInt16) :
    (w.step (.undeclare id)).Exact ↔ w.Clean (.undeclare id) := by
  have hkeys := exact_iff.mp h
  rw [exact_iff, Clean, step, unregisterResource]
  dsimp only [ResourceTables.resources]
  cases hfind : getResourceById w.tables.remoteResources id with
  | none =>
    have hcount : w.tables.remoteResources.countP (·.id = id) = 0 := by
      simpa [countP_eq_zero] using getResourceById_none hfind
    simp only [hcount, Nat.zero_le, reduceCtorEq, false_imp_iff, implies_true, and_self, iff_true]
    intro i hi
    split
    · next hid => rw [hid, keyOf, hfind, map_none]
    · exact hkeys i hi
  | some res =>
    have hone : res.unshare.refcount = 0 ↔ res.refcount = 1 := by
      simp [Resource.unshare, UInt16.sub_eq_iff_eq_add]
    dsimp only
    by_cases hshared : res.refcount = 1
    · rw [if_pos (hone.mpr hshared)]
      have hothers : ∀ i, i ≠ id → keyOf (w.tables.remoteResources.eraseP (·.id = id)) i =
          keyOf w.tables.remoteResources i := fun i hi ↦
        congrArg _ (find?_eraseP_of_ne (g := Resource.id) hi w.tables.remoteResources)
      have hself : keyOf (w.tables.remoteResources.eraseP (·.id = id)) id = none ↔
          w.tables.remoteResources.countP (·.id = id) ≤ 1 :=
        map_eq_none_iff.trans (find?_eraseP_eq_none (g := Resource.id))
      simp only [some.injEq, forall_eq', hshared, and_true, ← hself, ResourceTables.setResources]
      constructor
      · intro hexact hid
        simpa using hexact id hid
      · intro hnone i hi
        split
        · next hid =>
          subst hid
          exact hnone hi
        · next hid => rw [hothers i hid, hkeys i hi]
    · rw [if_neg (mt hone.mp hshared)]
      simp only [some.injEq, forall_eq', hshared, and_false, imp_false, not_not,
        ResourceTables.setResources, keyOf_unshare]
      constructor
      · intro hexact
        by_contra hid
        have hnone := hexact id hid
        rw [if_pos rfl, keyOf, hfind] at hnone
        cases hnone
      · rintro rfl i hi
        rw [if_neg hi, hkeys i hi]

/-- After a step wire expressions are resolved exactly when it is clean. -/
theorem Exact.step_iff (h : w.Exact) (e : KexprDeclaration) : (w.step e).Exact ↔ w.Clean e := by
  cases e with
  | declare id scope suffix => exact h.declare_iff id scope suffix
  | undeclare id => exact h.undeclare_iff id

theorem init_exact (localResources : List Resource) (resourceId : UInt16) :
    (init localResources resourceId).Exact :=
  exact_iff.mpr fun _ _ ↦ rfl

theorem exact_run_iff {events : List KexprDeclaration} (h : w.Exact) :
    (∀ before after, events = before ++ after → (w.run before).Exact) ↔ w.CleanRun events := by
  induction events generalizing w with
  | nil =>
    refine ⟨fun _ ↦ trivial, fun _ before after hevents ↦ ?_⟩
    obtain ⟨rfl, -⟩ := append_eq_nil_iff.mp hevents.symm
    exact h
  | cons e events ih =>
    constructor
    · intro hexact
      have hstep : (w.step e).Exact := hexact [e] events rfl
      refine ⟨(h.step_iff e).mp hstep, (ih hstep).mp ?_⟩
      rintro before after rfl
      exact hexact (e :: before) after rfl
    · rintro ⟨hclean, hrest⟩ before after hevents
      have hstep : (w.step e).Exact := (h.step_iff e).mpr hclean
      cases before with
      | nil => exact h
      | cons first before =>
        obtain ⟨rfl, hafter⟩ := List.cons.inj hevents
        exact (ih hstep).mpr hrest before after hafter

/-- In a run of a peer its wire expressions are resolved to what they stand for at every time
exactly when every step of the run is clean. -/
theorem remoteResources_exact_iff (localResources : List Resource) (resourceId : UInt16)
    (events : List KexprDeclaration) : (∀ before after, events = before ++ after →
        ((init localResources resourceId).run before).Exact) ↔
      (init localResources resourceId).CleanRun events :=
  exact_run_iff (init_exact localResources resourceId)

/-- An id that is declared anew and undeclared still stands for what it was declared first. -/
theorem remoteResources_not_exact_redeclared :
    ¬ ∀ (localResources : List Resource) (resourceId : UInt16) (events : List KexprDeclaration)
      (before after : List KexprDeclaration), events = before ++ after →
      ((init localResources resourceId).run before).Exact := by
  intro h
  have hexact := h [] 1 _ [.declare 5 0 [97], .declare 5 0 [98], .undeclare 5] [] rfl 5 [] (by decide)
  exact absurd hexact (by decide)

end RemoteResources

end ZenohPico.Session
