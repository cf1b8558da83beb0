import ZenohPico.Protocol.Iobuf

/-!
The write buffers that messages are encoded into (`src/protocol/iobuf.c`,
`include/zenoh-pico/protocol/iobuf.h`).

A write buffer is a vector of slices, with the index of the slice it reads from and of the one it
writes to. A slice is a region of memory with a read and a write position in it. Some slices are
allocated by the buffer, some wrap bytes of the caller, and behind each of these lies one that
wraps what was left of the slice before. An assertion that fails and an access outside of the
vector are `none`.
-/

namespace ZenohPico.Protocol

/-- `_z_iosli_t`, with the memory that its pointer points to. -/
structure IoSli where
  rPos : ℕ
  wPos : ℕ
  capacity : ℕ
  buf : List UInt8
  isAlloc : Bool
deriving DecidableEq, Repr

namespace IoSli

/-- `_z_iosli_make`, where the allocation succeeds. What the memory holds at first is not read
before it is written. -/
def make (capacity : ℕ) : IoSli := ⟨0, 0, capacity, List.replicate capacity 0, true⟩

/-- `_z_iosli_wrap` -/
def wrap (buf : List UInt8) (length rPos wPos : ℕ) : Option IoSli :=
  if rPos ≤ wPos ∧ wPos ≤ length then some ⟨rPos, wPos, length, buf, false⟩ else none

/-- `_z_iosli_writable` -/
def writable (ios : IoSli) : ℕ := ios.capacity - ios.wPos

/-- `_z_iosli_readable` -/
def readable (ios : IoSli) : ℕ := ios.wPos - ios.rPos

/-- `_z_iosli_can_write` -/
def canWrite (ios : IoSli) : Bool := ios.wPos < ios.capacity

/-- `_z_iosli_to_bytes` -/
def toBytes (ios : IoSli) : List UInt8 := (ios.buf.drop ios.rPos).take ios.readable

/-- `_z_iosli_read` -/
def read (ios : IoSli) : Option (UInt8 × IoSli) :=
  if ios.rPos < ios.wPos then
    ios.buf[ios.rPos]?.map fun b ↦ (b, { ios with rPos := ios.rPos + 1 })
  else none

/-- `_z_iosli_write` -/
def write (ios : IoSli) (b : UInt8) : Option IoSli :=
  if ios.wPos < ios.capacity then
    some { ios with buf := ios.buf.set ios.wPos b, wPos := ios.wPos + 1 }
  else none

/-- `_z_iosli_read_bytes` -/
def readBytes (ios : IoSli) (length : ℕ) : Option (List UInt8 × IoSli) :=
  if length ≤ ios.readable then
    some ((ios.buf.drop ios.rPos).take length, { ios with rPos := ios.rPos + length })
  else none

/-- `_z_iosli_write_bytes` -/
def writeBytes (ios : IoSli) (bs : List UInt8) : Option IoSli :=
  if bs.length ≤ ios.writable then
    some
      { ios with
        buf := ios.buf.take ios.wPos ++ bs ++ ios.buf.drop (ios.wPos + bs.length)
        wPos := ios.wPos + bs.length }
  else none

/-- `_z_iosli_reset` -/
def reset (ios : IoSli) : IoSli := { ios with rPos := 0, wPos := 0 }

end IoSli

/-- `_z_wbuf_t` -/
structure WBuf where
  ioss : List IoSli
  rIdx : ℕ
  wIdx : ℕ
  expansionStep : ℕ
deriving DecidableEq, Repr

/-- The results a write to a buffer can have: `_Z_RES_OK` and `_Z_ERR_TRANSPORT_NO_SPACE` -/
inductive WRes
  | ok
  | noSpace
deriving DecidableEq, Repr

namespace WBuf

/-- `_z_wbuf_get_iosli` -/
def getIosli (wbf : WBuf) (idx : ℕ) : Option IoSli := wbf.ioss[idx]?

/-- The buffer after a change of one of its slices -/
def setIosli (wbf : WBuf) (idx : ℕ) (ios : IoSli) : WBuf :=
  { wbf with ioss := wbf.ioss.set idx ios }

/-- `_z_wbuf_add_iosli` -/
def addIosli (wbf : WBuf) (ios : IoSli) : WBuf :=
  { wbf with ioss := wbf.ioss ++ [ios], wIdx := wbf.wIdx + 1 }

/-- `_z_wbuf_make` -/
def make (capacity : ℕ) (isExpandable : Bool) : WBuf where
  ioss := [IoSli.make capacity]
  rIdx := 0
  wIdx := 0
  expansionStep := if isExpandable then capacity else 0

/-- `_z_wbuf_len` -/
def len (wbf : WBuf) : ℕ :=
  (((wbf.ioss.take (wbf.wIdx + 1)).drop wbf.rIdx).map IoSli.readable).sum

/-- The capacity of the slices before an index, as `_z_wbuf_get_rpos` and `_z_wbuf_get_wpos` add
it up -/
def startOf (wbf : WBuf) (idx : ℕ) : ℕ := ((wbf.ioss.take idx).map IoSli.capacity).sum

/-- `_z_wbuf_get_rpos` -/
def getRpos (wbf : WBuf) : Option ℕ := do
  let ios ← wbf.getIosli wbf.rIdx
  return wbf.startOf wbf.rIdx + ios.rPos

/-- `_z_wbuf_get_wpos` -/
def getWpos (wbf : WBuf) : Option ℕ := do
  let ios ← wbf.getIosli wbf.wIdx
  return wbf.startOf wbf.wIdx + ios.wPos

/-! ### Reads -/

/-- The loop of `_z_wbuf_read`, with the number of the slices from the read index up to the write
index. With none of them left the assertion fails. -/
def readLoop : ℕ → WBuf → Option (UInt8 × WBuf)
  | 0, _ => none
  | left + 1, wbf => do
    let ios ← wbf.getIosli wbf.rIdx
    if 0 < ios.readable then
      let (b, ios) ← ios.read
      return (b, wbf.setIosli wbf.rIdx ios)
    else readLoop left { wbf with rIdx := wbf.rIdx + 1 }

/-- `_z_wbuf_read` -/
def read (wbf : WBuf) : Option (UInt8 × WBuf) := readLoop (wbf.wIdx + 1 - wbf.rIdx) wbf

/-- The loop that `_z_wbuf_read_bytes` and `_z_wbuf_siphon` take bytes out of a buffer with, and
the bytes in the order in which it copies them. A slice is read in one round and left in the
next. -/
def takeLoop : ℕ → WBuf → ℕ → Option (List UInt8 × WBuf)
  | 0, _, _ => none
  | fuel + 1, wbf, llength => do
    if wbf.wIdx < wbf.rIdx then none
    else
      let ios ← wbf.getIosli wbf.rIdx
      if 0 < ios.readable then
        let toRead := if ios.readable ≤ llength then ios.readable else llength
        let (bs, ios) ← ios.readBytes toRead
        let wbf := wbf.setIosli wbf.rIdx ios
        if 0 < llength - toRead then
          let (bs', wbf) ← takeLoop fuel wbf (llength - toRead)
          return (bs ++ bs', wbf)
        else return (bs, wbf)
      else
        let wbf := { wbf with rIdx := wbf.rIdx + 1 }
        if 0 < llength then takeLoop fuel wbf llength else return ([], wbf)

/-- `_z_wbuf_read_bytes`. Two rounds for each of the slices left to read are enough. -/
def readBytes (wbf : WBuf) (length : ℕ) : Option (List UInt8 × WBuf) :=
  takeLoop (2 * (wbf.wIdx + 1 - wbf.rIdx) + 1) wbf length

/-- `_z_wbuf_to_zbuf` -/
def toZbuf (wbf : WBuf) : Option ZBuf :=
  if wbf.rIdx ≤ wbf.wIdx ∧ wbf.ioss.length ≤ wbf.wIdx then none
  else
    some (((wbf.ioss.take (wbf.wIdx + 1)).drop wbf.rIdx).foldl
      (fun zbf ios ↦ zbf.write ios.toBytes) (ZBuf.make wbf.len))

/-! ### Writes -/

/-- The end of `_z_wbuf_write`, at the slice of the write index -/
def writeHere (wbf : WBuf) (b : UInt8) : Option WBuf := do
  let ios ← wbf.getIosli wbf.wIdx
  let ios ← ios.write b
  return wbf.setIosli wbf.wIdx ios

/-- `_z_wbuf_write` -/
def write (wbf : WBuf) (b : UInt8) : Option (WRes × WBuf) := do
  let ios ← wbf.getIosli wbf.wIdx
  if ios.canWrite then
    return (.ok, ← wbf.writeHere b)
  else if wbf.ioss.length ≤ wbf.wIdx + 1 then
    if wbf.expansionStep = 0 then return (.noSpace, wbf)
    else return (.ok, ← (wbf.addIosli (IoSli.make wbf.expansionStep)).writeHere b)
  else return (.ok, ← { wbf with wIdx := wbf.wIdx + 1 }.writeHere b)

/-- The loop of `_z_wbuf_write_bytes` that expands the buffer. Each round writes a byte at least,
so as many rounds as there are bytes are enough. -/
def expandLoop : ℕ → WBuf → List UInt8 → Option WBuf
  | _, wbf, [] => some wbf
  | 0, _, _ :: _ => none
  | fuel + 1, wbf, b :: bs => do
    let wbf := wbf.addIosli (IoSli.make wbf.expansionStep)
    let ios ← wbf.getIosli wbf.wIdx
    let writable := if (b :: bs).length < ios.writable then (b :: bs).length else ios.writable
    let ios ← ios.writeBytes ((b :: bs).take writable)
    expandLoop fuel (wbf.setIosli wbf.wIdx ios) ((b :: bs).drop writable)

/-- `_z_wbuf_write_bytes` -/
def writeBytes (wbf : WBuf) (bs : List UInt8) : Option (WRes × WBuf) := do
  let ios ← wbf.getIosli wbf.wIdx
  let writable := ios.writable
  if bs.length ≤ writable then
    let ios ← ios.writeBytes bs
    return (.ok, wbf.setIosli wbf.wIdx ios)
  else if wbf.expansionStep ≠ 0 then
    let ios ← ios.writeBytes (bs.take writable)
    let rest := bs.drop writable
    return (.ok, ← expandLoop rest.length (wbf.setIosli wbf.wIdx ios) rest)
  else return (.noSpace, wbf)

/-- `_z_wbuf_wrap_bytes` with the offset zero. The slice behind the wrapped bytes points into the
slice before them. -/
def wrapBytes (wbf : WBuf) (bs : List UInt8) : Option WBuf := do
  let ios ← wbf.getIosli wbf.wIdx
  let currSpace := ios.writable
  let wbf := wbf.setIosli wbf.wIdx { ios with capacity := ios.wPos }
  let wios ← IoSli.wrap bs bs.length 0 bs.length
  let wbf := wbf.addIosli wios
  let ios ← wbf.getIosli (wbf.wIdx - 1)
  let wios ← IoSli.wrap (ios.buf.drop ios.wPos) currSpace 0 0
  return wbf.addIosli wios

/-- The loop of `_z_wbuf_set_wpos`: the index of the slice the position lies in, and the slices
after it. Below the capacity of a slice the difference wraps round, and no slice is that long. -/
def setWposLoop (current : ℕ) : List IoSli → Option (ℕ × List IoSli)
  | [] => none
  | ios :: ioss =>
    if current ≤ ios.capacity ∧ ios.rPos ≤ current then
      some (0, { ios with wPos := current } :: ioss)
    else if current < ios.capacity then none
    else (setWposLoop (current - ios.capacity) ioss).map fun (i, ioss) ↦
      (i + 1, { ios with wPos := ios.capacity } :: ioss)

/-- `_z_wbuf_set_wpos` -/
def setWpos (wbf : WBuf) (pos : ℕ) : Option WBuf := do
  let (i, ioss) ← setWposLoop pos wbf.ioss
  return { wbf with ioss := ioss, wIdx := i }

/-- `_z_wbuf_siphon` of one buffer into another. The bytes are copied one slice after the other
behind what is written in the slice of the write index of the destination. -/
def siphon (dst src : WBuf) (length : ℕ) : Option (WRes × WBuf × WBuf) := do
  let wios ← dst.getIosli dst.wIdx
  if length ≤ wios.writable then
    let (bs, src) ← src.readBytes length
    let wios ← wios.writeBytes bs
    return (.ok, dst.setIosli dst.wIdx wios, src)
  else return (.noSpace, dst, src)

/-! ### Reset -/

/-- The loop of `_z_wbuf_reset` from an index on. When the slice at the index is removed, the one
behind it moves to the index, and the loop goes on behind that one. -/
def resetLoop : List IoSli → List IoSli
  | [] => []
  | [ios] => if ios.isAlloc then [ios.reset] else []
  | ios :: next :: ioss =>
    if ios.isAlloc then ios.reset :: resetLoop (next :: ioss) else next :: resetLoop ioss

/-- `_z_wbuf_reset` -/
def reset (wbf : WBuf) : WBuf :=
  { wbf with ioss := resetLoop wbf.ioss, rIdx := 0, wIdx := 0 }

end WBuf

end ZenohPico.Protocol
