import ZenohPico.Keyexpr.Language

/-!
What the pointer helpers of the matchers compute, in terms of the text they read. `Reads s b c` says
that the bytes from `b` on are those of `c`; `ChunkAt` and `ChunkBefore` add that `c` is a whole
chunk of the region it lies in, seen from the end of the region or from its beginning. The lemmas
take such a text apart at either end, which is how the matchers move, and give the value of each
helper on it.
-/

open List

namespace ZenohPico.Keyexpr

open Foundations

/-! ### Texts -/

/-- The bytes from `b` on are those of the text. -/
def Reads (s : Bytes) : ℕ → Bytes → Prop
  | _, [] => True
  | b, a :: c => byteAt s b = a ∧ Reads s (b + 1) c

theorem reads_append_iff {s : Bytes} {b : ℕ} {c d : Bytes} :
    Reads s b (c ++ d) ↔ Reads s b c ∧ Reads s (b + c.length) d := by
  induction c generalizing b with
  | nil => simp [Reads]
  | cons a c ih =>
    rw [cons_append, Reads, Reads, ih, length_cons, and_assoc]
    rw [show b + 1 + c.length = b + (c.length + 1) by omega]

theorem reads_concat_iff {s : Bytes} {b : ℕ} {c : Bytes} {a : UInt8} :
    Reads s b (c ++ [a]) ↔ Reads s b c ∧ byteAt s (b + c.length) = a := by
  rw [reads_append_iff]
  simp [Reads]

theorem reads_self (s : Bytes) : Reads s 0 s := by
  suffices h : ∀ pre c : Bytes, s = pre ++ c → Reads s pre.length c from h [] s rfl
  intro pre c
  induction c generalizing pre with
  | nil => exact fun _ ↦ trivial
  | cons a c ih =>
    rintro rfl
    refine ⟨by simp [byteAt], ?_⟩
    simpa using ih (pre ++ [a]) (by simp)

theorem memchr_of_reads {s : Bytes} {b : ℕ} {t : Bytes} (h : Reads s b t) (x : UInt8) :
    memchr s x b t.length = if x ∈ t then some (b + t.idxOf x) else none := by
  induction t generalizing b with
  | nil => simp [memchr]
  | cons a t ih =>
    obtain ⟨ha, ht⟩ := h
    rw [length_cons, memchr, ha]
    by_cases hax : a = x
    · subst hax
      simp
    · rw [if_neg hax, ih ht, idxOf_cons_ne _ hax]
      have hmem : x ∈ a :: t ↔ x ∈ t := by simp [Ne.symm hax]
      simp only [hmem]
      split_ifs
      · rw [Nat.succ_eq_add_one, show b + 1 + t.idxOf x = b + (t.idxOf x + 1) by omega]
      · rfl

theorem memchr_eq_none_of_reads {s : Bytes} {b n : ℕ} {t : Bytes} {x : UInt8}
    (h : Reads s b t) (hn : n = t.length) (hx : x ∉ t) : memchr s x b n = none := by
  rw [hn, memchr_of_reads h, if_neg hx]

theorem memchr_eq_some_of_reads {s : Bytes} {b n : ℕ} {c : Bytes} {x : UInt8}
    (h : Reads s b (c ++ [x])) (hn : c.length < n) (hx : x ∉ c) :
    memchr s x b n = some (b + c.length) := by
  induction c generalizing b n with
  | nil =>
    obtain ⟨k, rfl⟩ : ∃ k, n = k + 1 := ⟨n - 1, by simp only [length_nil] at hn; omega⟩
    rw [memchr, if_pos h.1]
    rfl
  | cons a c ih =>
    obtain ⟨k, rfl⟩ : ∃ k, n = k + 1 := ⟨n - 1, by omega⟩
    simp only [mem_cons, not_or] at hx
    simp only [length_cons] at hn ⊢
    rw [memchr, h.1, if_neg (Ne.symm hx.1), ih h.2 (by omega) hx.2]
    rw [show b + 1 + c.length = b + (c.length + 1) by omega]

/-! ### Chunks seen from the front -/

/-- The text is what is left of a chunk at `b`, in a region that ends at `e`. -/
structure ChunkAt (s : Bytes) (b e : ℕ) (c : Bytes) : Prop where
  reads : Reads s b c
  free : delimiter ∉ c
  stop : b + c.length = e ∨ b + c.length < e ∧ byteAt s (b + c.length) = delimiter

namespace ChunkAt

variable {s : Bytes} {b e : ℕ} {c : Bytes} {a : UInt8}

theorem le (h : ChunkAt s b e c) : b + c.length ≤ e := by
  rcases h.stop with h | h <;> omega

theorem tail (h : ChunkAt s b e (a :: c)) : ChunkAt s (b + 1) e c := by
  refine ⟨h.reads.2, fun hmem ↦ h.free (mem_cons_of_mem _ hmem), ?_⟩
  have hstop := h.stop
  rw [length_cons, show b + (c.length + 1) = b + 1 + c.length by omega] at hstop
  exact hstop

theorem head (h : ChunkAt s b e (a :: c)) : byteAt s b = a := h.reads.1

theorem head_ne (h : ChunkAt s b e (a :: c)) : a ≠ delimiter := by
  rintro rfl
  exact h.free mem_cons_self

theorem lt (h : ChunkAt s b e (a :: c)) : b < e := by
  have := h.le
  simp only [length_cons] at this
  omega

theorem chunkEnd_eq (h : ChunkAt s b e c) : chunkEnd s b e = b + c.length := by
  unfold chunkEnd
  rcases h.stop with hstop | ⟨hlt, hdel⟩
  · rw [memchr_eq_none_of_reads h.reads (by omega) h.free, Option.getD_none]
    exact hstop.symm
  · rw [memchr_eq_some_of_reads (reads_concat_iff.mpr ⟨h.reads, hdel⟩) (by omega) h.free,
      Option.getD_some]

theorem chunkEndBehind_eq (h : ChunkAt s b e c) : chunkEndBehind s b e = some (b + c.length) := by
  rw [chunkEndBehind, if_pos ((Nat.le_add_right _ _).trans h.le), h.chunkEnd_eq]

theorem stop_nil (h : ChunkAt s b e []) : b = e ∨ byteAt s b = delimiter :=
  h.stop.imp_right And.right

/-- The chunk is used up exactly when the matcher's test for it says so. -/
theorem exhausted_iff (h : ChunkAt s b e c) : (b == e || byteAt s b == delimiter) = c.isEmpty := by
  cases c with
  | nil =>
    rcases h.stop_nil with hstop | hdel
    · simp [hstop]
    · simp [hdel]
  | cons a c =>
    have hlt := h.lt
    have hne := h.head_ne
    rw [h.head]
    simp [hne, Nat.ne_of_lt hlt]

theorem entered_iff (h : ChunkAt s b e c) : (b < e ∧ byteAt s b ≠ delimiter) ↔ c ≠ [] := by
  cases c with
  | nil =>
    rcases h.stop_nil with hstop | hdel
    · simp [hstop]
    · simp [hdel]
  | cons a c =>
    rw [h.head]
    simp [h.lt, h.head_ne]

end ChunkAt

/-! ### Chunks seen from the back -/

/-- The text is what is left of a chunk that starts at `x`, in a region that starts at `b`. -/
structure ChunkBefore (s : Bytes) (b x : ℕ) (c : Bytes) : Prop where
  reads : Reads s x c
  free : delimiter ∉ c
  start : x = b ∨ b < x ∧ byteAt s (x - 1) = delimiter

namespace ChunkBefore

variable {s : Bytes} {b x : ℕ} {c : Bytes} {a : UInt8}

theorem take {d : Bytes} (h : ChunkBefore s b x (c ++ d)) : ChunkBefore s b x c :=
  ⟨(reads_append_iff.mp h.reads).1, fun hmem ↦ h.free (mem_append_left _ hmem), h.start⟩

theorem le (h : ChunkBefore s b x c) : b ≤ x := by
  rcases h.start with h | h <;> omega

theorem last (h : ChunkBefore s b x (c ++ [a])) : byteAt s (x + (c ++ [a]).length - 1) = a := by
  have := (reads_concat_iff.mp h.reads).2
  rwa [length_append, length_singleton, show x + (c.length + 1) - 1 = x + c.length by omega]

theorem last_ne (h : ChunkBefore s b x (c ++ [a])) : a ≠ delimiter := by
  rintro rfl
  exact h.free (by simp)

theorem chunkBegin_eq (h : ChunkBefore s b x c) : chunkBegin s b (x + c.length) = x := by
  induction c using List.reverseRecOn with
  | nil =>
    simp only [length_nil, Nat.add_zero]
    cases x with
    | zero => rfl
    | succ x =>
      rw [chunkBegin, if_neg]
      rintro ⟨hle, hne⟩
      rcases h.start with hstart | ⟨-, hdel⟩
      · omega
      · exact hne hdel
  | append_singleton c a ih =>
    have hlast := h.last
    rw [length_append, length_singleton] at hlast ⊢
    rw [show x + (c.length + 1) = x + c.length + 1 by omega] at hlast ⊢
    rw [Nat.add_sub_cancel] at hlast
    rw [chunkBegin, if_pos ⟨by have := h.le; omega, by rw [hlast]; exact h.last_ne⟩, ih h.take]

theorem exhausted_iff (h : ChunkBefore s b x c) :
    (b == x + c.length || byteAt s (x + c.length - 1) == delimiter) = c.isEmpty := by
  cases c using List.reverseRecOn with
  | nil =>
    rcases h.start with hstart | ⟨-, hdel⟩
    · simp [hstart]
    · simp [hdel]
  | append_singleton c a =>
    have hle := h.le
    have hne : b ≠ x + (c ++ [a]).length := by
      simp only [length_append, length_singleton]
      omega
    rw [h.last, beq_false_of_ne hne, beq_false_of_ne h.last_ne]
    simp

theorem entered_iff (h : ChunkBefore s b x c) :
    (b < x + c.length ∧ byteAt s (x + c.length - 1) ≠ delimiter) ↔ c ≠ [] := by
  cases c using List.reverseRecOn with
  | nil =>
    rcases h.start with hstart | ⟨-, hdel⟩
    · simp [hstart]
    · simp [hdel]
  | append_singleton c a =>
    have hlt : b < x + (c ++ [a]).length := by
      have hle := h.le
      simp only [length_append, length_singleton]
      omega
    rw [h.last]
    exact iff_of_true ⟨hlt, h.last_ne⟩ (by simp)

end ChunkBefore

end ZenohPico.Keyexpr
