import Mathlib.Data.List.Nodup
import Mathlib.Order.Lattice

/-!
The latest item of every key in a history.

A history has its newest item first. Of the items of one key the latest is the one with the
greatest time, and among items of that time the first that came in.
-/

open List

namespace ZenohPico.Foundations

variable {α κ τ : Type*} [LinearOrder τ] (key : α → κ) (time : α → τ)

/-- The latest items of a history, the newest first -/
def latest [DecidableEq κ] : List α → List α
  | [] => []
  | x :: older =>
    if ∃ y ∈ latest older, key y = key x ∧ time x ≤ time y then latest older
    else x :: (latest older).filter (key · ≠ key x)

/-- An item that nothing before it reaches, and nothing after it surpasses -/
def IsLatest (history : List α) (x : α) : Prop :=
  ∃ newer older, history = newer ++ x :: older ∧
    (∀ y ∈ newer, key y = key x → time y ≤ time x) ∧ ∀ y ∈ older, key y = key x → time y < time x

/-- The items of a list are the latest ones of a history, one for each of its keys. -/
structure LatestOf (history items : List α) : Prop where
  nodup : (items.map key).Nodup
  isLatest : ∀ x ∈ items, IsLatest key time history x
  covers : ∀ x ∈ history, ∃ y ∈ items, key y = key x

variable {key time} {history : List α} {x y : α}

theorem IsLatest.cons (h : IsLatest key time history x) (hy : key y = key x → time y ≤ time x) :
    IsLatest key time (y :: history) x := by
  obtain ⟨newer, older, rfl, hnewer, holder⟩ := h
  refine ⟨y :: newer, older, rfl, ?_, holder⟩
  rintro z (_ | ⟨_, hz⟩)
  · exact hy
  · exact hnewer z hz

variable [DecidableEq κ]

/-- What is not among the latest items is surpassed by one of them. -/
theorem exists_latest (h : x ∈ history) :
    ∃ y ∈ latest key time history, key y = key x ∧ time x ≤ time y := by
  induction history with
  | nil => cases h
  | cons y older ih =>
    rw [latest]
    split
    · next hstale =>
      rcases mem_cons.mp h with rfl | h
      · exact hstale
      · exact ih h
    · next hstale =>
      rcases mem_cons.mp h with rfl | h
      · exact ⟨x, mem_cons_self, rfl, le_rfl⟩
      · obtain ⟨z, hz, hkey, htime⟩ := ih h
        by_cases hzy : key z = key y
        · have hlt : time z < time y := by
            by_contra hle
            exact hstale ⟨z, hz, hzy, not_lt.mp hle⟩
          exact ⟨y, mem_cons_self, hzy.symm.trans hkey, htime.trans hlt.le⟩
        · exact ⟨z, mem_cons_of_mem _ (mem_filter.mpr ⟨hz, by simpa using hzy⟩), hkey, htime⟩

theorem latest_nodup : ((latest key time history).map key).Nodup := by
  induction history with
  | nil => exact nodup_nil
  | cons y older ih =>
    rw [latest]
    split
    · exact ih
    · rw [map_cons, nodup_cons]
      refine ⟨fun hmem ↦ ?_, ih.sublist (filter_sublist.map key)⟩
      obtain ⟨z, hz, hkey⟩ := mem_map.mp hmem
      simp [hkey] at hz

theorem isLatest_of_mem_latest (h : x ∈ latest key time history) : IsLatest key time history x := by
  induction history with
  | nil => cases h
  | cons y older ih =>
    rw [latest] at h
    split at h
    · next hstale =>
      obtain ⟨z, hz, hkey, htime⟩ := hstale
      refine (ih h).cons fun hyx ↦ ?_
      have hzx : z = x := inj_on_of_nodup_map latest_nodup hz h (hkey.trans hyx)
      exact hzx ▸ htime
    · next hstale =>
      rcases mem_cons.mp h with rfl | h
      · have hlatest : ∀ z ∈ older, ∃ w ∈ latest key time older, key w = key z ∧ time z ≤ time w :=
          fun _ hz ↦ exists_latest hz
        refine ⟨[], older, rfl, by simp, fun z hz hkey ↦ ?_⟩
        obtain ⟨w, hw, hwkey, hwtime⟩ := hlatest z hz
        refine hwtime.trans_lt (lt_of_not_ge fun hle ↦ hstale ⟨w, hw, hwkey.trans hkey, hle⟩)
      · obtain ⟨hold, hne⟩ := mem_filter.mp h
        exact (ih hold).cons fun hyx ↦ absurd hyx.symm (by simpa using hne)

theorem latest_latestOf : LatestOf key time history (latest key time history) where
  nodup := latest_nodup
  isLatest := fun _ hx ↦ isLatest_of_mem_latest hx
  covers := fun x hx ↦
    have hlatest : ∃ y ∈ latest key time history, key y = key x ∧ time x ≤ time y :=
      exists_latest hx
    hlatest.imp fun _ h ↦ ⟨h.1, h.2.1⟩

end ZenohPico.Foundations
