import ZenohPico.Collections.HashMap

/-!
The configuration of a session (`src/protocol/config.c`), a map from keys of eight bits to strings.

A value replaces the one of its key, except for the key of the locators to connect to, which keeps
all of its values. All values of a key are collected from the rest of a bucket, from the newest
entry of the key on, without a look at the keys behind it: `configReads_iff` says when these are the
values of the key.
-/

namespace ZenohPico.Protocol

open Collections List

/-- `Z_CONFIG_CONNECT_KEY` -/
def configConnectKey : UInt8 := 0x41

/-- `_z_config_t`, an integer map -/
abbrev Config := HashMap UInt8 (List UInt8)

/-- `_z_config_init`, with the hash and the capacity of an integer map -/
def configInit : Config := .make 16 UInt8.toNat

/-- `_zp_config_insert` -/
def configInsert (ps : Config) (key : UInt8) (value : List UInt8) : Config :=
  if key = configConnectKey then ps.insert key value false else ps.insert key value true

/-- `_z_config_get` -/
def configGet (ps : Config) (key : UInt8) : Option (List UInt8) := ps.get key

/-- `_z_config_get_all` -/
def configGetAll (ps : Config) (key : UInt8) : List (List UInt8) := (ps.getAll key).map Prod.snd

/-- The configuration after a sequence of insertions -/
def configAfter (inserts : List (UInt8 × List UInt8)) : Config :=
  inserts.foldl (fun ps e ↦ configInsert ps e.1 e.2) configInit

/-- What was inserted under a key, and still counts: everything under the key of the locators to
connect to, and the latest value under every other one -/
def configValues (inserts : List (UInt8 × List UInt8)) (key : UInt8) : List (List UInt8) :=
  let values := (inserts.filter fun e ↦ e.1 = key).map Prod.snd
  if key = configConnectKey then values else values.getLast?.toList

/-- The values of a key are read, in any order, and one of them alone. -/
structure ConfigReads (inserts : List (UInt8 × List UInt8)) (key : UInt8) : Prop where
  all : (configGetAll (configAfter inserts) key).Perm (configValues inserts key)
  none : configGet (configAfter inserts) key = none ↔ configValues inserts key = []
  one : ∀ v, configGet (configAfter inserts) key = some v → v ∈ configValues inserts key

/-- Whatever was inserted under another key of the same bucket before the last insertion under the
key was replaced after it. -/
def BucketFresh (inserts : List (UInt8 × List UInt8)) (key : UInt8) : Prop :=
  ∀ before v after, inserts = before ++ (key, v) :: after → key ∉ after.map Prod.fst →
    ∀ e ∈ before, e.1 ≠ key → e.1.toNat % 16 = key.toNat % 16 →
      e.1 ≠ configConnectKey ∧ e.1 ∈ after.map Prod.fst

/-- The keys whose values do not replace each other -/
def configPushed (key : UInt8) : Bool := key = configConnectKey

theorem configAfter_eq (inserts : List (UInt8 × List UInt8)) :
    configAfter inserts = .insertAll 16 UInt8.toNat configPushed inserts := by
  rw [configAfter, HashMap.insertAll]
  congr 1
  funext ps e
  by_cases h : e.1 = configConnectKey <;> simp [configInsert, configPushed, h]

/-- What stands of a key is what counts of it. -/
theorem configValues_eq (inserts : List (UInt8 × List UInt8)) (key : UInt8) :
    configValues inserts key =
      ((standing configPushed inserts).filter fun e ↦ e.1 = key).map Prod.snd := by
  induction inserts using List.reverseRecOn with
  | nil => simp [configValues, standing]
  | append_singleton inserts e ih =>
    obtain ⟨k, v⟩ := e
    rw [standing_concat, filter_append, map_append]
    by_cases hkey : k = key
    · subst hkey
      by_cases hpushed : k = configConnectKey
      · have hih := ih
        simp only [configValues, hpushed, if_true] at hih
        simp [configValues, configPushed, hpushed, hih]
      · simp [configValues, configPushed, hpushed]
    · have hskip : ((standing configPushed inserts).filter fun e ↦ e.1 ≠ k).filter
          (fun e ↦ e.1 = key) = (standing configPushed inserts).filter fun e ↦ e.1 = key := by
        rw [filter_filter]
        refine filter_congr fun e _ ↦ ?_
        by_cases hek : e.1 = key <;> simp [hek, Ne.symm hkey]
      have hvalues : configValues (inserts ++ [(k, v)]) key = configValues inserts key := by
        simp [configValues, hkey]
      rw [hvalues, ih]
      cases hpushed : configPushed k with
      | true => simp [hkey]
      | false =>
        rw [if_neg Bool.false_ne_true, hskip]
        simp [hkey]

/-- The last insertion under a key -/
theorem exists_last_insertion {inserts : List (UInt8 × List UInt8)} {key : UInt8}
    (h : key ∈ inserts.map Prod.fst) : ∃ before v after,
      inserts = before ++ (key, v) :: after ∧ key ∉ after.map Prod.fst := by
  induction inserts with
  | nil => cases h
  | cons e inserts ih =>
    by_cases hmem : key ∈ inserts.map Prod.fst
    · obtain ⟨before, v, after, rfl, hafter⟩ := ih hmem
      exact ⟨e :: before, v, after, rfl, hafter⟩
    · obtain ⟨k, v⟩ := e
      rw [map_cons, mem_cons] at h
      obtain rfl := h.resolve_right hmem
      exact ⟨[], v, inserts, rfl, hmem⟩

section LastInsertion

variable {before after : List (UInt8 × List UInt8)} {key : UInt8} {v : List UInt8}

/-- What stands of the entries in front of the last insertion under a key -/
def standingBefore (before after : List (UInt8 × List UInt8)) (key : UInt8) (v : List UInt8) :
    List (UInt8 × List UInt8) :=
  (standing configPushed before).filter (outlives configPushed ((key, v) :: after))

theorem getAll_last (hafter : key ∉ after.map Prod.fst) :
    (configAfter (before ++ (key, v) :: after)).getAll key =
      (key, v) :: ((standingBefore before after key v).filter
        fun e ↦ e.1.toNat % 16 = key.toNat % 16).reverse := by
  rw [configAfter_eq, HashMap.getAll_of_last hafter, standingBefore]

theorem configValues_last (hafter : key ∉ after.map Prod.fst) :
    configValues (before ++ (key, v) :: after) key =
      (((standingBefore before after key v).filter fun e ↦ e.1 = key) ++ [(key, v)]).map
        Prod.snd := by
  have hout : outlives configPushed after (key, v) = true := by
    simp only [outlives, Bool.or_eq_true, decide_eq_true_eq]
    exact .inr hafter
  have hnone : (standing configPushed after).filter (fun e ↦ e.1 = key) = [] := by
    rw [filter_eq_nil_iff]
    intro e he
    rw [decide_eq_true_eq]
    rintro rfl
    exact hafter (keys_standing.mp (mem_map_of_mem he))
  rw [configValues_eq, standing_append, standing, if_pos hout, filter_append,
    filter_cons_of_pos (by simp), hnone, standingBefore]

/-- The keys that stand in front of the last insertion -/
theorem mem_standingBefore {k : UInt8} (hk : k ≠ key) :
    k ∈ (standingBefore before after key v).map Prod.fst ↔
      k ∈ before.map Prod.fst ∧ (k = configConnectKey ∨ k ∉ after.map Prod.fst) := by
  have hout {value : List UInt8} : outlives configPushed ((key, v) :: after) (k, value) = true ↔
      k = configConnectKey ∨ k ∉ after.map Prod.fst := by
    simp [outlives, configPushed, hk]
  rw [← @keys_standing _ _ _ configPushed before k, mem_map, mem_map]
  constructor
  · rintro ⟨⟨k, value⟩, he, rfl⟩
    obtain ⟨hstands, hkeep⟩ := mem_filter.mp he
    exact ⟨⟨(k, value), hstands, rfl⟩, hout.mp hkeep⟩
  · rintro ⟨⟨⟨k, value⟩, hstands, rfl⟩, hkeep⟩
    exact ⟨(k, value), mem_filter.mpr ⟨hstands, hout.mpr hkeep⟩, rfl⟩

/-- The values are those of the key if the rest of its bucket has no other one. -/
theorem configReads_last (hafter : key ∉ after.map Prod.fst) :
    ConfigReads (before ++ (key, v) :: after) key ↔
      ∀ e ∈ standingBefore before after key v, e.1.toNat % 16 = key.toNat % 16 → e.1 = key := by
  have hget : configGet (configAfter (before ++ (key, v) :: after)) key = some v := by
    rw [configGet, HashMap.get, getAll_last hafter]
    rfl
  have hvalues := @configValues_last before after key v hafter
  constructor
  · intro h e he hbucket
    have hall := h.all.length_eq
    rw [configGetAll, getAll_last hafter, hvalues, length_map, length_map,
      length_cons, length_reverse, length_append, length_singleton,
      Nat.add_right_cancel_iff] at hall
    have hsub : ((standingBefore before after key v).filter fun e ↦ e.1 = key) =
        ((standingBefore before after key v).filter
          fun e ↦ e.1.toNat % 16 = key.toNat % 16).filter fun e ↦ e.1 = key := by
      rw [filter_filter]
      refine filter_congr fun e _ ↦ ?_
      by_cases hek : e.1 = key <;> simp [hek]
    rw [hsub, eq_comm, length_filter_eq_length_iff] at hall
    simpa using hall e (mem_filter.mpr ⟨he, by simpa using hbucket⟩)
  · intro h
    have hsame : ((standingBefore before after key v).filter
        fun e ↦ e.1.toNat % 16 = key.toNat % 16) =
          (standingBefore before after key v).filter fun e ↦ e.1 = key := by
      refine filter_congr fun e he ↦ ?_
      by_cases hek : e.1 = key
      · simp [hek]
      · have hbucket : ¬ e.1.toNat % 16 = key.toNat % 16 := fun hb ↦ hek (h e he hb)
        simp [hek, hbucket]
    refine ⟨?_, ?_, ?_⟩
    · rw [configGetAll, getAll_last hafter, hvalues, hsame]
      refine List.Perm.map _ ?_
      exact ((reverse_perm _).cons _).trans (perm_append_singleton _ _).symm
    · rw [hget, hvalues]
      simp
    · intro value hvalue
      rw [hget, Option.some.injEq] at hvalue
      rw [hvalues, ← hvalue]
      simp

end LastInsertion

/-- The values of a key are read exactly if no value of another key lies behind its newest one. -/
theorem configReads_iff (inserts : List (UInt8 × List UInt8)) (key : UInt8) :
    ConfigReads inserts key ↔ BucketFresh inserts key := by
  constructor
  · rintro h before v after rfl hafter e he hne hbucket
    have hreads := (configReads_last hafter).mp h
    by_contra hkeep
    rw [not_and_or, not_not] at hkeep
    obtain ⟨e', he', heq⟩ := mem_map.mp
      ((mem_standingBefore hne).mpr ⟨mem_map_of_mem he, hkeep⟩)
    rw [← heq] at hne hbucket
    exact hne (hreads e' he' hbucket)
  · intro h
    by_cases hmem : key ∈ inserts.map Prod.fst
    · obtain ⟨before, v, after, rfl, hafter⟩ := exists_last_insertion hmem
      refine (configReads_last hafter).mpr fun e he hbucket ↦ ?_
      by_contra hne
      obtain ⟨hbefore, hkeep⟩ := (mem_standingBefore hne).mp (mem_map_of_mem he)
      obtain ⟨e', he', heq⟩ := mem_map.mp hbefore
      rw [← heq] at hne hbucket hkeep
      obtain ⟨hconnect, hreplaced⟩ := h before v after rfl hafter e' he' hne hbucket
      exact hkeep.elim hconnect fun hnot ↦ hnot hreplaced
    · have hnone : (configAfter inserts).getAll key = [] := by
        rw [configAfter_eq, HashMap.getAll_of_not_mem hmem]
      have hfilter : (inserts.filter fun e ↦ e.1 = key) = [] := by
        rw [filter_eq_nil_iff]
        intro e he
        rw [decide_eq_true_eq]
        rintro rfl
        exact hmem (mem_map_of_mem he)
      have hvalues : configValues inserts key = [] := by
        rw [configValues, hfilter]
        split_ifs <;> rfl
      have hget : configGet (configAfter inserts) key = none := by
        rw [configGet, HashMap.get, hnone]
        rfl
      refine ⟨?_, ?_, ?_⟩
      · rw [configGetAll, hnone, hvalues]
        exact List.Perm.nil
      · rw [hget, hvalues]
        simp
      · intro value hvalue
        rw [hget] at hvalue
        cases hvalue

/-- The switch for mutual TLS (0x51) is taken for a locator to connect to (0x41). -/
theorem configGetAll_other_key :
    configGetAll (configAfter [(0x51, [0x74]), (0x41, [0x61])]) configConnectKey =
        [[0x61], [0x74]] ∧ ¬ ConfigReads [(0x51, [0x74]), (0x41, [0x61])] configConnectKey := by
  have hall : configGetAll (configAfter [(0x51, [0x74]), (0x41, [0x61])]) configConnectKey =
      [[0x61], [0x74]] := by
    decide
  refine ⟨hall, fun h ↦ ?_⟩
  have hlength := h.all.length_eq
  rw [hall] at hlength
  exact absurd hlength (by decide)

end ZenohPico.Protocol
