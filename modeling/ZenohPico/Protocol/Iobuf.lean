import ZenohPico.Protocol.Codec

/-!
The read buffers that batches arrive in (`src/protocol/iobuf.c`,
`include/zenoh-pico/protocol/iobuf.h`).

A read buffer has a capacity, the bytes written so far and a read position. What lies between
the read position and the write position is still to be read.
-/

open List

namespace ZenohPico.Protocol

/-- `_z_zbuf_t`. The write position is the number of the bytes written. -/
structure ZBuf where
  capacity : ℕ
  bytes : List UInt8
  rPos : ℕ
  rPos_le : rPos ≤ bytes.length
  length_le : bytes.length ≤ capacity

namespace ZBuf

/-- `_z_zbuf_make` -/
def make (capacity : ℕ) : ZBuf := ⟨capacity, [], 0, le_rfl, Nat.zero_le _⟩

/-- `_z_zbuf_null` -/
def null : ZBuf := make 0

/-- The bytes between the read and the write position -/
def readable (zbf : ZBuf) : List UInt8 := zbf.bytes.drop zbf.rPos

/-- `_z_zbuf_len` -/
def len (zbf : ZBuf) : ℕ := zbf.bytes.length - zbf.rPos

/-- `_z_zbuf_space_left` -/
def spaceLeft (zbf : ZBuf) : ℕ := zbf.capacity - zbf.bytes.length

/-- `_z_zbuf_reset` -/
def reset (zbf : ZBuf) : ZBuf := ⟨zbf.capacity, [], 0, le_rfl, Nat.zero_le _⟩

/-- `_z_zbuf_compact` -/
def compact (zbf : ZBuf) : ZBuf where
  capacity := zbf.capacity
  bytes := zbf.readable
  rPos := 0
  rPos_le := Nat.zero_le _
  length_le := by
    have := zbf.length_le
    rw [readable, length_drop]
    omega

/-- `_z_zbuf_set_rpos` to a later position, which the code asserts to be written -/
def skip (zbf : ZBuf) (n : ℕ) : ZBuf where
  capacity := zbf.capacity
  bytes := zbf.bytes
  rPos := min (zbf.rPos + n) zbf.bytes.length
  rPos_le := min_le_right _ _
  length_le := zbf.length_le

/-- `_z_zbuf_set_rpos` to an earlier position -/
def unskip (zbf : ZBuf) (n : ℕ) : ZBuf where
  capacity := zbf.capacity
  bytes := zbf.bytes
  rPos := zbf.rPos - n
  rPos_le := (Nat.sub_le _ _).trans zbf.rPos_le
  length_le := zbf.length_le

/-- `_z_zbuf_read`, which asserts that there is a byte to read -/
def read (zbf : ZBuf) : UInt8 × ZBuf := (zbf.readable.headD 0, zbf.skip 1)

/-- Bytes put at the write position, as many as there is room for -/
def write (zbf : ZBuf) (data : List UInt8) : ZBuf where
  capacity := zbf.capacity
  bytes := zbf.bytes ++ data.take zbf.spaceLeft
  rPos := zbf.rPos
  rPos_le := by
    have := zbf.rPos_le
    rw [length_append]
    omega
  length_le := by
    have := zbf.length_le
    rw [length_append, length_take, spaceLeft]
    omega

/-- `_z_zbuf_copy_bytes` -/
def copyBytes (dst src : ZBuf) : ZBuf := dst.write src.readable

/-! ### What is left to read -/

variable (zbf : ZBuf)

@[simp]
theorem length_readable : zbf.readable.length = zbf.len := length_drop

@[simp]
theorem readable_make (capacity : ℕ) : (make capacity).readable = [] := rfl

@[simp]
theorem readable_reset : zbf.reset.readable = [] := rfl

@[simp]
theorem capacity_reset : zbf.reset.capacity = zbf.capacity := rfl

@[simp]
theorem readable_compact : zbf.compact.readable = zbf.readable := rfl

@[simp]
theorem capacity_compact : zbf.compact.capacity = zbf.capacity := rfl

@[simp]
theorem spaceLeft_compact : zbf.compact.spaceLeft = zbf.capacity - zbf.len := by
  rw [spaceLeft, capacity_compact, ← length_readable]
  rfl

@[simp]
theorem capacity_skip (n : ℕ) : (zbf.skip n).capacity = zbf.capacity := rfl

@[simp]
theorem spaceLeft_skip (n : ℕ) : (zbf.skip n).spaceLeft = zbf.spaceLeft := rfl

@[simp]
theorem readable_skip (n : ℕ) : (zbf.skip n).readable = zbf.readable.drop n := by
  rw [readable, readable, drop_drop]
  change List.drop (min (zbf.rPos + n) zbf.bytes.length) zbf.bytes = _
  rcases Nat.le_total (zbf.rPos + n) zbf.bytes.length with h | h
  · rw [min_eq_left h]
  · rw [min_eq_right h, drop_length, drop_eq_nil_of_le h]

@[simp]
theorem len_skip (n : ℕ) : (zbf.skip n).len = zbf.len - n := by
  rw [← length_readable, readable_skip, length_drop, length_readable]

theorem skip_skip (n m : ℕ) : (zbf.skip n).skip m = zbf.skip (n + m) := by
  have hmin : min (min (zbf.rPos + n) zbf.bytes.length + m) zbf.bytes.length =
      min (zbf.rPos + (n + m)) zbf.bytes.length := by omega
  simp only [skip, hmin]

/-- Bytes that were read can be read again. -/
theorem unskip_skip {n : ℕ} (h : n ≤ zbf.len) : (zbf.skip n).unskip n = zbf := by
  have hmin : min (zbf.rPos + n) zbf.bytes.length - n = zbf.rPos := by
    rw [len] at h
    have := zbf.rPos_le
    omega
  obtain ⟨capacity, bytes, rPos, hrPos, hlength⟩ := zbf
  simp only [skip, unskip] at hmin ⊢
  simp only [hmin]

@[simp]
theorem capacity_write (data : List UInt8) : (zbf.write data).capacity = zbf.capacity := rfl

theorem bytes_write {data : List UInt8} (h : data.length ≤ zbf.spaceLeft) :
    (zbf.write data).bytes = zbf.bytes ++ data := by
  change zbf.bytes ++ data.take zbf.spaceLeft = _
  rw [take_of_length_le h]

theorem readable_write {data : List UInt8} (h : data.length ≤ zbf.spaceLeft) :
    (zbf.write data).readable = zbf.readable ++ data := by
  rw [readable, zbf.bytes_write h]
  exact drop_append_of_le_length zbf.rPos_le

@[simp]
theorem rPos_write (data : List UInt8) : (zbf.write data).rPos = zbf.rPos := rfl

/-! ### The length of a batch -/

/-- `_z_host_le_load16` -/
def hostLeLoad16 (b₀ b₁ : UInt8) : ℕ := b₀.toNat + 256 * b₁.toNat

/-- `_z_read_stream_size` -/
def readStreamSize (zbf : ZBuf) : ℕ × ZBuf :=
  let (b₀, zbf) := zbf.read
  let (b₁, zbf) := zbf.read
  (hostLeLoad16 b₀ b₁, zbf)

@[simp]
theorem readStreamSize_snd : zbf.readStreamSize.2 = zbf.skip 2 := zbf.skip_skip 1 1

theorem readStreamSize_fst {b₀ b₁ : UInt8} {rest : List UInt8}
    (h : zbf.readable = b₀ :: b₁ :: rest) : zbf.readStreamSize.1 = hostLeLoad16 b₀ b₁ := by
  simp [readStreamSize, read, h]

end ZBuf

end ZenohPico.Protocol
