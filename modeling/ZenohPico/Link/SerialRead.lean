import ZenohPico.Foundations.FuelLoop
import ZenohPico.Link.SerialFrame

/-!
Reading an exact number of bytes from a serial link
(`src/link/transport/upper/serial_protocol.c`).

The frames are read until there are enough bytes, each to the start of the buffer: a frame is written
over the one before it, and the end of the buffer stays as it was.
-/

namespace ZenohPico.Link

open Foundations List

/-! ### The source's functions -/

/-- `_z_read_serial` -/
def readSerial (port : List UInt8) (len : ℕ) : Option (List UInt8) × List UInt8 :=
  ((readSerialInternal port len).1.map Prod.snd, (readSerialInternal port len).2)

/-- The variables of the loop of `_z_read_exact_serial`, with the buffer and the line -/
structure ReadExact where
  n : ℕ
  buf : List UInt8
  port : List UInt8

/-- A buffer with a payload read to its start -/
def readOver (buf payload : List UInt8) : List UInt8 := payload ++ buf.drop payload.length

/-- A pass of the loop of `_z_read_exact_serial`. The result `none` is `SIZE_MAX`. -/
def readExactPass (len : ℕ) (s : ReadExact) : Pass ReadExact (Option (ℕ × List UInt8)) :=
  match readSerial s.port (len - s.n) with
  | (none, _) => .done none
  | (some payload, port) =>
    -- `ptr` is passed on as it is
    let buf := readOver s.buf payload
    let n := s.n + payload.length
    if n = len then .done (some (n, buf)) else .next ⟨n, buf, port⟩

/-- `_z_read_exact_serial`, with so many passes at most -/
def readExactSerial (passes : ℕ) (port buf : List UInt8) : Option (Option (ℕ × List UInt8)) :=
  runLoop (fun s ↦ some (readExactPass buf.length s)) passes ⟨0, buf, port⟩

/-! ### Frames on the line -/

/-- The frames with these payloads are the next ones on a line. -/
inductive Brings : List UInt8 → List (List UInt8) → List UInt8 → Prop
  | nil (port : List UInt8) : Brings port [] port
  | cons {port port' rest payload : List UInt8} {payloads : List (List UInt8)}
    (hread : ∀ len, payload.length ≤ len → readSerial port len = (some payload, port'))
    (hrest : Brings port' payloads rest) : Brings port (payload :: payloads) rest

variable {payload : List UInt8}

/-- A frame that can be read, with any header -/
theorem Brings.frame (header : UInt8) {port rest : List UInt8} {payloads : List (List UInt8)}
    (hfits : (cobsEncode (serialFrame header payload (crc32 payload))).length + 1 ≤ serialMfs)
    (hrest : Brings port payloads rest) :
    Brings (cobsEncode (serialFrame header payload (crc32 payload)) ++ 0 :: port)
      (payload :: payloads) rest := by
  refine .cons (fun len hlen ↦ ?_) hrest
  rw [readSerial, readSerialInternal_frame hfits, if_pos ⟨hlen, rfl⟩]
  rfl

section ReadOver

variable {payloads : List (List UInt8)} {buf : List UInt8}

/-- Payloads without a byte change nothing. -/
theorem foldl_readOver_nil (h : payloads.flatten = []) : payloads.foldl readOver buf = buf := by
  induction payloads generalizing buf with
  | nil => rfl
  | cons payload payloads ih =>
    rw [flatten_cons, append_eq_nil_iff] at h
    rw [foldl_cons, h.1, readOver, nil_append, length_nil, drop_zero, ih h.2]

/-- Behind all payloads the buffer stays as it was. -/
theorem drop_foldl_readOver {k : ℕ} (h : ∀ payload ∈ payloads, payload.length ≤ k) :
    (payloads.foldl readOver buf).drop k = buf.drop k := by
  induction payloads generalizing buf with
  | nil => rfl
  | cons payload payloads ih =>
    rw [forall_mem_cons] at h
    rw [foldl_cons, ih h.2, readOver, drop_append, drop_of_length_le h.1, nil_append, drop_drop]
    congr 1
    omega

/-- The frames that have bytes -/
def nonemptyPayloads (payloads : List (List UInt8)) : List (List UInt8) :=
  payloads.filter fun payload ↦ !payload.isEmpty

theorem flatten_eq_nil_of_nonemptyPayloads (h : nonemptyPayloads payloads = []) :
    payloads.flatten = [] := by
  rw [nonemptyPayloads, filter_eq_nil_iff] at h
  rw [flatten_eq_nil_iff]
  intro payload hmem
  have hempty := h payload hmem
  rw [Bool.not_eq_true', Bool.not_eq_false] at hempty
  exact isEmpty_iff.mp hempty

theorem foldl_readOver_single (h : (nonemptyPayloads payloads).length ≤ 1)
    (hlen : buf.length = payloads.flatten.length) :
    payloads.foldl readOver buf = payloads.flatten := by
  induction payloads generalizing buf with
  | nil => exact length_eq_zero_iff.mp hlen
  | cons payload payloads ih =>
    rw [flatten_cons, length_append] at hlen
    rw [foldl_cons, flatten_cons]
    by_cases hnil : payload = []
    · subst hnil
      rw [readOver, nil_append, length_nil, drop_zero, nil_append]
      refine ih h ?_
      rwa [length_nil, Nat.zero_add] at hlen
    · have hnone : nonemptyPayloads payloads = [] := by
        have hfilter : nonemptyPayloads (payload :: payloads) =
            payload :: nonemptyPayloads payloads :=
          filter_cons_of_pos (by rw [isEmpty_eq_false_iff.mpr hnil]; rfl)
        rw [hfilter, length_cons] at h
        exact length_eq_zero_iff.mp (by omega)
      have hrest := flatten_eq_nil_of_nonemptyPayloads hnone
      rw [hrest, length_nil] at hlen
      rw [foldl_readOver_nil hrest, hrest, readOver, drop_of_length_le (by omega)]

/-- Where two payloads have bytes each of them is shorter than all of them together. -/
theorem length_lt_flatten (h : 1 < (nonemptyPayloads payloads).length) :
    ∀ payload ∈ payloads, payload.length < payloads.flatten.length := by
  induction payloads with
  | nil => exact fun _ hmem ↦ absurd hmem not_mem_nil
  | cons first payloads ih =>
    rw [flatten_cons, length_append]
    by_cases hnil : first = []
    · subst hnil
      have hpositive : ∀ payload ∈ payloads, payload.length < payloads.flatten.length := ih h
      obtain ⟨some_, hmem⟩ : ∃ payload, payload ∈ payloads := by
        by_contra hnone
        rw [eq_nil_iff_forall_not_mem.mpr fun payload hmem ↦ hnone ⟨payload, hmem⟩] at h
        exact absurd h (by decide)
      have hlt := hpositive some_ hmem
      rw [length_nil, Nat.zero_add]
      exact forall_mem_cons.mpr ⟨by rw [length_nil]; omega, hpositive⟩
    · have hfirst : 0 < first.length := length_pos_iff.mpr hnil
      have hrest : payloads.flatten ≠ [] := by
        intro hflatten
        have hnone : nonemptyPayloads payloads = [] := by
          rw [nonemptyPayloads, filter_eq_nil_iff]
          intro payload hmem
          rw [flatten_eq_nil_iff.mp hflatten payload hmem]
          decide
        have hfilter : nonemptyPayloads (first :: payloads) = first :: nonemptyPayloads payloads :=
          filter_cons_of_pos (by rw [isEmpty_eq_false_iff.mpr hnil]; rfl)
        rw [hfilter, hnone] at h
        exact absurd h (Nat.lt_irrefl 1)
      have hpos : 0 < payloads.flatten.length := length_pos_iff.mpr hrest
      refine forall_mem_cons.mpr ⟨by omega, fun payload hmem ↦ ?_⟩
      have hle := (sublist_flatten_of_mem hmem).length_le
      omega

/-- The payloads are put one behind the other, whatever was in the buffer, exactly when at most one
of them has bytes. -/
theorem foldl_readOver_iff (payloads : List (List UInt8)) :
    (∀ buf : List UInt8, buf.length = payloads.flatten.length →
      payloads.foldl readOver buf = payloads.flatten) ↔ (nonemptyPayloads payloads).length ≤ 1 := by
  refine ⟨fun h ↦ ?_, fun h buf ↦ foldl_readOver_single h⟩
  by_contra hmore
  have hlt := length_lt_flatten (Nat.lt_of_not_le hmore)
  have hend (byte : UInt8) : (List.replicate payloads.flatten.length byte).drop
      (payloads.flatten.length - 1) = payloads.flatten.drop (payloads.flatten.length - 1) := by
    rw [← drop_foldl_readOver (fun payload hmem ↦ Nat.le_sub_one_of_lt (hlt payload hmem)),
      h _ length_replicate]
  have hpos : 0 < payloads.flatten.length := by
    rw [length_pos_iff]
    intro hnil
    obtain ⟨payload, hmem⟩ := exists_mem_of_length_pos (Nat.zero_lt_of_lt
      (Nat.lt_of_lt_of_le (Nat.lt_of_not_le hmore) (length_filter_le _ payloads)))
    have hshort := hlt payload hmem
    rw [hnil] at hshort
    exact absurd hshort (Nat.not_lt_zero _)
  have hbytes := (hend 0).trans (hend 1).symm
  rw [drop_replicate, drop_replicate,
    show payloads.flatten.length - (payloads.flatten.length - 1) = 1 by omega] at hbytes
  exact absurd hbytes (by decide)

end ReadOver

/-! ### The loop -/

section Loop

variable {payloads : List (List UInt8)} {port port' rest : List UInt8}

theorem readExactPass_next {len n : ℕ} (buf : List UInt8)
    (hread : readSerial port (len - n) = (some payload, port')) : readExactPass len ⟨n, buf, port⟩ =
      if n + payload.length = len then .done (some (n + payload.length, readOver buf payload))
      else .next ⟨n + payload.length, readOver buf payload, port'⟩ := by
  rw [readExactPass, hread]

/-- What the loop makes of frames that give as many bytes as are missing -/
theorem Brings.loop (h : Brings port payloads rest) (hne : payloads ≠ []) (len n : ℕ)
    (hlen : n + payloads.flatten.length = len) (buf : List UInt8) :
    LoopComputes (fun _ s ↦ some (readExactPass len s)) ⟨n, buf, port⟩
      (some (some (len, payloads.foldl readOver buf))) := by
  induction h generalizing n buf with
  | nil => exact absurd rfl hne
  | @cons port port' rest payload payloads hread hrest ih =>
    rw [flatten_cons, length_append] at hlen
    have hpass := readExactPass_next buf (hread (len - n) (by omega))
    rw [foldl_cons]
    by_cases hend : n + payload.length = len
    · rw [if_pos hend] at hpass
      have hnil : payloads.flatten = [] := length_eq_zero_iff.mp (by omega)
      rw [foldl_readOver_nil hnil]
      refine loopComputes_exit fun _ ↦ ?_
      rw [hpass, hend]
    · rw [if_neg hend] at hpass
      have hmore : payloads ≠ [] := by
        rintro rfl
        exact hend (by rwa [flatten_nil, length_nil, Nat.add_zero] at hlen)
      exact loopComputes_next (computes_const fun _ ↦ congrArg some hpass)
        (ih hmore (n + payload.length) (by omega) (readOver buf payload))

/-- What the loop makes of a read that fails after frames that do not give all bytes -/
theorem Brings.loop_failed (h : Brings port payloads rest) (len n : ℕ)
    (hlen : n + payloads.flatten.length < len ∨ payloads = [])
    (hfails : (readSerial rest (len - (n + payloads.flatten.length))).1 = none)
    (buf : List UInt8) :
    LoopComputes (fun _ s ↦ some (readExactPass len s)) ⟨n, buf, port⟩ (some none) := by
  induction h generalizing n buf with
  | nil port =>
    refine loopComputes_exit fun _ ↦ ?_
    rw [flatten_nil, length_nil, Nat.add_zero] at hfails
    rw [readExactPass]
    generalize readSerial port (len - n) = read at hfails
    obtain ⟨result, port⟩ := read
    cases hfails
    rfl
  | @cons port port' rest payload payloads hread hrest ih =>
    rw [flatten_cons, length_append] at hlen hfails
    have hless : n + (payload.length + payloads.flatten.length) < len :=
      hlen.resolve_right (cons_ne_nil _ _)
    have hpass := readExactPass_next buf (hread (len - n) (by omega))
    rw [if_neg (by omega)] at hpass
    refine loopComputes_next (computes_const fun _ ↦ congrArg some hpass)
      (ih (n + payload.length) (Or.inl (by omega)) ?_ (readOver buf payload))
    rwa [Nat.add_assoc]

/-- Frames that together have as many bytes as the buffer fill it, whatever was in it. -/
def Gathers (port : List UInt8) (payloads : List (List UInt8)) : Prop :=
  ∀ buf : List UInt8, buf.length = payloads.flatten.length →
    Settles (fun n ↦ readExactSerial n port buf) (some (buf.length, payloads.flatten))

/-- A read that fails before there are enough bytes is reported. -/
def ReportsFailure (port : List UInt8) : Prop :=
  ∀ (payloads : List (List UInt8)) (rest buf : List UInt8), Brings port payloads rest →
    payloads.flatten.length < buf.length ∨ payloads = [] →
    (readSerial rest (buf.length - payloads.flatten.length)).1 = none →
    Settles (fun n ↦ readExactSerial n port buf) none

theorem reportsFailure (port : List UInt8) : ReportsFailure port := by
  intro payloads rest buf hbrings hlen hfails
  rw [← Nat.zero_add payloads.flatten.length] at hlen hfails
  exact (hbrings.loop_failed buf.length 0 hlen hfails buf).computes.settles

/-- The frames on a line fill a buffer of their length, and failures are reported, exactly when at
most one of the frames has bytes. -/
theorem gathers_iff (h : Brings port payloads rest) (hne : payloads ≠ []) :
    (Gathers port payloads ∧ ReportsFailure port) ↔ (nonemptyPayloads payloads).length ≤ 1 := by
  rw [and_iff_left (reportsFailure port), ← foldl_readOver_iff]
  refine forall₂_congr fun buf hbuf ↦ ?_
  have hloop := (h.loop hne buf.length 0 (by omega) buf).computes.settles
  constructor
  · intro hgathers
    exact congrArg Prod.snd (Option.some.inj (hloop.unique hgathers))
  · intro hover
    rwa [hover] at hloop

end Loop

/-- The line with these frames -/
def portOf (payloads : List (List UInt8)) : List UInt8 :=
  payloads.flatMap fun payload ↦ cobsEncode (serialFrame 0 payload (crc32 payload)) ++ [0]

theorem brings_portOf {payloads : List (List UInt8)}
    (h : ∀ payload ∈ payloads, payload.length ≤ 16) : Brings (portOf payloads) payloads [] := by
  induction payloads with
  | nil => exact .nil []
  | cons payload payloads ih =>
    rw [forall_mem_cons] at h
    have hlen := length_cobsEncode (serialFrame 0 payload (crc32 payload))
    have hruns := mul_fullRuns_le (0 : UInt8) cobsBound 0 (serialFrame 0 payload (crc32 payload))
    rw [length_serialFrame] at hlen hruns
    unfold cobsBound at hlen hruns
    rw [portOf, flatMap_cons, append_assoc, singleton_append]
    refine .frame 0 ?_ (ih h.2)
    unfold serialMfs serialMtu
    omega

/-- A frame of three bytes between two without any -/
theorem gathers_three : Gathers (portOf [[], [1, 2, 3], []]) [[], [1, 2, 3], []] :=
  ((gathers_iff (brings_portOf (by decide)) (cons_ne_nil _ _)).mpr (by decide)).1

/-- Two frames of a byte: the second one is read over the first. -/
theorem not_gathers_two : Brings (portOf [[1], [2]]) [[1], [2]] [] ∧
    Settles (fun n ↦ readExactSerial n (portOf [[1], [2]]) [0, 0]) (some (2, [2, 0])) ∧
    ¬ Gathers (portOf [[1], [2]]) [[1], [2]] := by
  have hbrings : Brings (portOf [[1], [2]]) [[1], [2]] [] := brings_portOf (by decide)
  have hloop := (hbrings.loop (cons_ne_nil _ _) 2 0 rfl [0, 0]).computes.settles
  refine ⟨hbrings, hloop, fun h ↦ ?_⟩
  have hbuffer := hloop.unique (h [0, 0] rfl)
  exact absurd hbuffer (by decide)

end ZenohPico.Link
