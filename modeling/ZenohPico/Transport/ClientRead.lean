import ZenohPico.Transport.UnicastRead

/-!
Reading from the router of a client (`_z_unicast_client_read`, `_zp_unicast_read` and
`_zp_unicast_read_task_fn` of `src/transport/unicast/read.c`).

A client has one connection, and the main buffer keeps what is left of its stream from one call
to the next. It is compacted where the next read would not fit. The background task and
`_zp_unicast_read` differ in one line: `_zp_unicast_read` resets the buffer before it reads, and
what was left of the stream is lost (`clientRead_delivers`, `coalescedRead_loses_batch`).
-/

namespace ZenohPico.Transport

open Protocol List

/-! ### The reader -/

/-- `_z_unicast_client_read` once there are two bytes of length, with the size of the batch when
it is all there -/
def unicastClientReadData (r : UnicastReader) (readiness : Readiness) : Option ℕ × UnicastReader :=
  let (toRead, zbuf) := r.zbuf.readStreamSize
  if zbuf.len < toRead then
    let missing := toRead - zbuf.len
    let (toRead, zbuf) :=
      if zbuf.spaceLeft < missing then (zbuf.unskip msgLenEncSize).compact.readStreamSize
      else (toRead, zbuf)
    let (_, socket, zbuf) := linkSocketRecvZbuf r.socket zbuf readiness
    if zbuf.len < toRead then
      (none, { r with socket, zbuf := (zbuf.unskip msgLenEncSize).compact })
    else (some toRead, { r with socket, zbuf })
  else (some toRead, { r with zbuf })

/-- `_z_unicast_client_read` on a streamed link. It may read twice, once for the length of a
batch and once for the batch. -/
def unicastClientRead (r : UnicastReader) (first second : Readiness) : Option ℕ × UnicastReader :=
  if r.zbuf.len < msgLenEncSize then
    let zbuf := if r.zbuf.spaceLeft < msgLenEncSize then r.zbuf.compact else r.zbuf
    let (_, socket, zbuf) := linkSocketRecvZbuf r.socket zbuf first
    if zbuf.len < msgLenEncSize then (none, { r with socket, zbuf := zbuf.compact })
    else unicastClientReadData { r with socket, zbuf } second
  else unicastClientReadData r second

/-- One round of `_zp_unicast_read_task_fn` for a client. A task that failed is not run again. -/
def clientReadTask (session : Session) (r : UnicastReader) (reads : Readiness × Readiness) :
    UnicastReader :=
  if r.delivery.dropped then r
  else
    match unicastClientRead r reads.1 reads.2 with
    | (none, r) => r
    | (some toRead, r) => unicastProcessMessages session r toRead

/-- `_zp_unicast_read` for more than a single message. A session that failed is not read again. -/
def zpUnicastRead (session : Session) (r : UnicastReader) (reads : Readiness × Readiness) :
    UnicastReader :=
  if r.delivery.dropped then r
  else clientReadTask session { r with zbuf := r.zbuf.reset } reads

/-- Reading a stream of batches by the background task -/
def runReadTask (session : Session) (capacity : ℕ) (batches : List (List UInt8))
    (rounds : List (Readiness × Readiness)) : UnicastReader :=
  rounds.foldl (clientReadTask session) (.init capacity batches)

/-- Reading a stream of batches by calls of `_zp_unicast_read` -/
def runZpReads (session : Session) (capacity : ℕ) (batches : List (List UInt8))
    (rounds : List (Readiness × Readiness)) : UnicastReader :=
  rounds.foldl (zpUnicastRead session) (.init capacity batches)

/-! ### One round -/

section Round

variable {session : Session} {done pending : List (List UInt8)} {r : UnicastReader}

/-- Both reads of a round find something that has arrived. -/
def FindsData (reads : Readiness × Readiness) : Prop :=
  ∃ n m, reads = (.arrived (n + 1), .arrived (m + 1))

/-- What a read of the stream comes to. When something has arrived and not everything was read,
it reads something or finds a whole batch. -/
inductive ClientOutcome (session : Session) (done pending : List (List UInt8))
    (r : UnicastReader) (progress : Prop) : Option ℕ × UnicastReader → Prop
  | waits {r' : UnicastReader} (hcapacity : r'.zbuf.capacity = r.zbuf.capacity)
      (hpeer : r'.peer = r.peer) (hdelivery : r'.delivery = r.delivery)
      (hat : StreamAt session done pending r'.zbuf.readable r'.delivery r'.socket)
      (hunread : r'.socket.unread.length ≤ r.socket.unread.length)
      (hprogress : progress → pending ≠ [] → r'.socket.unread.length < r.socket.unread.length) :
      ClientOutcome session done pending r progress (none, r')
  | batch {r' : UnicastReader} {rest size : List UInt8} {toRead : ℕ}
      (hcapacity : r'.zbuf.capacity = r.zbuf.capacity)
      (hpeer : r'.peer = r.peer) (hdelivery : r'.delivery = r.delivery)
      (hat : StreamAt session done pending rest r'.delivery r'.socket)
      (hrest : rest = size ++ r'.zbuf.readable) (hlength : size.length = msgLenEncSize)
      (hsize : batchFraming.decode size = toRead) (hle : toRead ≤ r'.zbuf.readable.length)
      (hunread : r'.socket.unread.length ≤ r.socket.unread.length) :
      ClientOutcome session done pending r progress (some toRead, r')

/-- The batch of a stream that a reader is about to read fits the buffer after its length. -/
def FitsBuffer (pending : List (List UInt8)) (capacity : ℕ) : Prop :=
  ∀ b ∈ pending, msgLenEncSize + b.length ≤ capacity

instance (pending : List (List UInt8)) (capacity : ℕ) : Decidable (FitsBuffer pending capacity) :=
  inferInstanceAs (Decidable (∀ b ∈ pending, msgLenEncSize + b.length ≤ capacity))

/-- Where a whole batch is still missing, the stream goes on. -/
theorem StreamAt.unread_ne_nil {rest : List UInt8} {delivery : Delivery} {socket : Socket}
    (hat : StreamAt session done pending rest delivery socket)
    (hcomplete : batchFraming.complete rest.length pending = []) (hpending : pending ≠ []) :
    socket.unread ≠ [] := by
  intro hnil
  have hrest := hat.unread_eq
  rw [hnil, append_nil] at hrest
  rw [hrest, Framing.complete_of_length_le le_rfl] at hcomplete
  exact hpending hcomplete

variable {readiness : Readiness}

/-- The rest of a batch is read into `zbuf`, the buffer with the length put back into it. -/
theorem clientRecvData_spec {zbuf : ZBuf} {size tail : List UInt8}
    (hat : StreamAt session done pending r.zbuf.readable r.delivery r.socket)
    (hzbuf : zbuf.readable = r.zbuf.readable) (hcapacity : zbuf.capacity = r.zbuf.capacity)
    (hrest : r.zbuf.readable = size ++ tail) (hlength : size.length = msgLenEncSize)
    (hshort : tail.length < batchFraming.decode size) (hspace : 0 < zbuf.spaceLeft) :
    ClientOutcome session done pending r (∃ n, readiness = .arrived (n + 1))
      (let (_, socket, zbuf') :=
        linkSocketRecvZbuf r.socket (zbuf.skip msgLenEncSize) readiness
       if zbuf'.len < batchFraming.decode size then
         (none, { r with socket, zbuf := (zbuf'.unskip msgLenEncSize).compact })
       else (some (batchFraming.decode size), { r with socket, zbuf := zbuf' })) := by
  have hlen : msgLenEncSize ≤ zbuf.len := by
    rw [← ZBuf.length_readable, hzbuf, hrest, length_append, hlength]
    exact Nat.le_add_right _ _
  have htail : (zbuf.skip msgLenEncSize).readable = tail := by
    rw [ZBuf.readable_skip, hzbuf, hrest, drop_left' hlength]
  have hunread : r.socket.unread ≠ [] ∨ pending = [] := by
    by_cases hpending : pending = []
    · exact .inr hpending
    · exact .inl (hat.unread_ne_nil (hat.complete_eq_nil hrest hlength hshort) hpending)
  obtain ⟨data, hrecv⟩ := linkSocketRecvZbuf_spec r.socket (zbuf.skip msgLenEncSize) readiness
  have hat' := hat.recv hrecv
  have hreadable := hrecv.readable
  have hunskip := hrecv.readable_unskip hlen
  have hmoved := hrecv.length_unread_le
  have hprogress : (∃ n, readiness = .arrived (n + 1)) → pending ≠ [] →
      (linkSocketRecvZbuf r.socket (zbuf.skip msgLenEncSize) readiness).2.1.unread.length <
        r.socket.unread.length := by
    rintro ⟨n, rfl⟩ hpending
    exact linkSocketRecvZbuf_progress n.succ_pos (hunread.resolve_right hpending) hspace
  rcases hresult : linkSocketRecvZbuf r.socket (zbuf.skip msgLenEncSize) readiness
    with ⟨readSize, socket, zbuf'⟩
  rw [hresult] at hrecv hat' hreadable hunskip hmoved hprogress
  dsimp only at hat' hreadable hunskip hmoved hprogress ⊢
  have hcapacity' : zbuf'.capacity = r.zbuf.capacity := hrecv.capacity.trans hcapacity
  by_cases hshort' : zbuf'.len < batchFraming.decode size
  · rw [if_pos hshort']
    refine .waits hcapacity' rfl rfl ?_ hmoved hprogress
    rw [ZBuf.readable_compact, hunskip, hzbuf]
    exact hat'
  · rw [if_neg hshort']
    refine .batch hcapacity' rfl rfl hat' ?_ hlength rfl ?_ hmoved
    · rw [hreadable, htail, hrest, append_assoc]
    · rw [ZBuf.length_readable]
      exact Nat.le_of_not_lt hshort'

/-- Both reads of a round, or the second of them alone, read on where the buffer ends. -/
theorem unicastClientReadData_spec {readiness : Readiness}
    (hat : StreamAt session done pending r.zbuf.readable r.delivery r.socket)
    (hfits : FitsBuffer pending r.zbuf.capacity) (hlen : msgLenEncSize ≤ r.zbuf.len) :
    ClientOutcome session done pending r (∃ n, readiness = .arrived (n + 1))
      (unicastClientReadData r readiness) := by
  obtain ⟨b₀, b₁, tail, hreadable⟩ : ∃ b₀ b₁ tail, r.zbuf.readable = b₀ :: b₁ :: tail := by
    rw [← ZBuf.length_readable] at hlen
    rcases hr : r.zbuf.readable with _ | ⟨b₀, _ | ⟨b₁, tail⟩⟩
    · simp [hr, msgLenEncSize] at hlen
    · simp [hr, msgLenEncSize] at hlen
    · exact ⟨b₀, b₁, tail, rfl⟩
  have hrest : r.zbuf.readable = [b₀, b₁] ++ tail := hreadable
  have htail : (r.zbuf.skip msgLenEncSize).readable = tail := by
    rw [ZBuf.readable_skip, hreadable]
    rfl
  have hskip : r.zbuf.readStreamSize = (batchFraming.decode [b₀, b₁], r.zbuf.skip msgLenEncSize) :=
    Prod.ext (r.zbuf.readStreamSize_fst hreadable) r.zbuf.readStreamSize_snd
  have hcompact : r.zbuf.compact.readStreamSize =
      (batchFraming.decode [b₀, b₁], r.zbuf.compact.skip msgLenEncSize) :=
    Prod.ext (r.zbuf.compact.readStreamSize_fst hreadable) r.zbuf.compact.readStreamSize_snd
  simp only [unicastClientReadData, hskip]
  by_cases hshort : (r.zbuf.skip msgLenEncSize).len < batchFraming.decode [b₀, b₁]
  · simp only [if_pos hshort, r.zbuf.unskip_skip hlen, hcompact]
    have hshort' : tail.length < batchFraming.decode [b₀, b₁] := by
      rwa [← htail, ZBuf.length_readable]
    by_cases hroom : (r.zbuf.skip msgLenEncSize).spaceLeft <
        batchFraming.decode [b₀, b₁] - (r.zbuf.skip msgLenEncSize).len
    · simp only [if_pos hroom]
      refine clientRecvData_spec hat rfl rfl hrest rfl hshort' ?_
      obtain ⟨b, pending', hpending, hdecode, -⟩ := hat.head hrest rfl
      have hb := hfits b (hpending ▸ mem_cons_self)
      have hlength : r.zbuf.len = msgLenEncSize + tail.length := by
        rw [← ZBuf.length_readable, hrest, length_append]
        rfl
      rw [ZBuf.spaceLeft_compact, hlength]
      omega
    · simp only [if_neg hroom]
      refine clientRecvData_spec hat rfl rfl hrest rfl hshort' ?_
      rw [ZBuf.spaceLeft_skip] at hroom
      omega
  · simp only [if_neg hshort]
    refine .batch rfl rfl rfl hat ?_ rfl rfl ?_ le_rfl
    · rw [hrest, htail]
    · rw [ZBuf.length_readable]
      exact Nat.le_of_not_lt hshort

variable {progress : Prop} {result : Option ℕ × UnicastReader}

theorem ClientOutcome.mono {progress' : Prop}
    (h : ClientOutcome session done pending r progress result) (himp : progress' → progress) :
    ClientOutcome session done pending r progress' result := by
  cases h with
  | waits hcapacity hpeer hdelivery hat hunread hprogress =>
    exact .waits hcapacity hpeer hdelivery hat hunread (hprogress ∘ himp)
  | batch hcapacity hpeer hdelivery hat hrest hlength hsize hle hunread =>
    exact .batch hcapacity hpeer hdelivery hat hrest hlength hsize hle hunread

/-- The outcome of the second read is the outcome of both. -/
theorem ClientOutcome.trans {r' : UnicastReader}
    (h : ClientOutcome session done pending r' progress result)
    (hcapacity : r'.zbuf.capacity = r.zbuf.capacity) (hpeer : r'.peer = r.peer)
    (hdelivery : r'.delivery = r.delivery)
    (hunread : r'.socket.unread.length ≤ r.socket.unread.length) :
    ClientOutcome session done pending r progress result := by
  cases h with
  | waits hcapacity' hpeer' hdelivery' hat hunread' hprogress =>
    refine .waits (hcapacity'.trans hcapacity) (hpeer'.trans hpeer) (hdelivery'.trans hdelivery)
      hat (hunread'.trans hunread) fun hp hpending ↦ ?_
    exact (hprogress hp hpending).trans_le hunread
  | batch hcapacity' hpeer' hdelivery' hat hrest hlength hsize hle hunread' =>
    exact .batch (hcapacity'.trans hcapacity) (hpeer'.trans hpeer) (hdelivery'.trans hdelivery)
      hat hrest hlength hsize hle (hunread'.trans hunread)

theorem unicastClientRead_spec (first second : Readiness)
    (hat : StreamAt session done pending r.zbuf.readable r.delivery r.socket)
    (hfits : FitsBuffer pending r.zbuf.capacity) :
    ClientOutcome session done pending r (FindsData (first, second))
      (unicastClientRead r first second) := by
  rw [unicastClientRead]
  by_cases hlen : r.zbuf.len < msgLenEncSize
  · rw [if_pos hlen]
    obtain ⟨zbuf, hzbuf⟩ : ∃ zbuf, zbuf =
      if r.zbuf.spaceLeft < msgLenEncSize then r.zbuf.compact else r.zbuf := ⟨_, rfl⟩
    rw [← hzbuf]
    have hreadable : zbuf.readable = r.zbuf.readable := by
      rw [hzbuf]
      split <;> rfl
    have hcapacity : zbuf.capacity = r.zbuf.capacity := by
      rw [hzbuf]
      split <;> rfl
    have hspace : pending ≠ [] → 0 < zbuf.spaceLeft := by
      intro hpending
      obtain ⟨b, pending', rfl⟩ := exists_cons_of_ne_nil hpending
      have hb := hfits b mem_cons_self
      rw [msgLenEncSize] at hb hlen hzbuf
      rw [hzbuf]
      split_ifs with hroom
      · rw [ZBuf.spaceLeft_compact]
        omega
      · omega
    have hprogress : FindsData (first, second) → pending ≠ [] →
        (linkSocketRecvZbuf r.socket zbuf first).2.1.unread.length < r.socket.unread.length := by
      rintro ⟨n, m, heq⟩ hpending
      rw [(Prod.mk.inj heq).1]
      have hcomplete : batchFraming.complete r.zbuf.readable.length pending = [] := by
        rw [← ZBuf.length_readable] at hlen
        exact StreamAt.complete_eq_nil_of_length_lt hlen
      exact linkSocketRecvZbuf_progress n.succ_pos (hat.unread_ne_nil hcomplete hpending)
        (hspace hpending)
    obtain ⟨data, hrecv⟩ := linkSocketRecvZbuf_spec r.socket zbuf first
    have hat' := hat.recv hrecv
    have hreadable' := hrecv.readable
    have hmoved := hrecv.length_unread_le
    rcases hresult : linkSocketRecvZbuf r.socket zbuf first with ⟨readSize, socket, zbuf'⟩
    rw [hresult] at hrecv hat' hreadable' hmoved hprogress
    dsimp only at hat' hreadable' hmoved hprogress
    rw [← hreadable, ← hreadable'] at hat'
    simp only [hresult]
    have hcapacity' : zbuf'.capacity = r.zbuf.capacity := hrecv.capacity.trans hcapacity
    by_cases hlen' : zbuf'.len < msgLenEncSize
    · rw [if_pos hlen']
      exact .waits hcapacity' rfl rfl hat' hmoved hprogress
    · rw [if_neg hlen']
      have hdata := @unicastClientReadData_spec _ _ _ { r with socket, zbuf := zbuf' } second hat'
        (hcapacity' ▸ hfits) (Nat.le_of_not_lt hlen')
      refine (hdata.mono ?_).trans hcapacity' rfl rfl hmoved
      rintro ⟨n, m, heq⟩
      exact ⟨m, (Prod.mk.inj heq).2⟩
  · rw [if_neg hlen]
    refine (unicastClientReadData_spec hat hfits (Nat.le_of_not_lt hlen)).mono ?_
    rintro ⟨n, m, heq⟩
    exact ⟨m, (Prod.mk.inj heq).2⟩

/-! ### The place in the stream -/

/-- A client at a place in its stream. As long as the session is alive, the buffer holds what was
received after the batches `done`. -/
structure ClientInv (session : Session) (batches : List (List UInt8)) (capacity : ℕ)
    (done pending : List (List UInt8)) (r : UnicastReader) : Prop where
  batches_eq : done ++ pending = batches
  capacity_eq : r.zbuf.capacity = capacity
  inactive : r.peer.flowState = .inactive
  place : ∃ rest, StreamAt session done pending rest r.delivery r.socket ∧
    (r.delivery.dropped = false → rest = r.zbuf.readable)

/-- What is left of the stream: bytes to read and batches to hand over -/
def left (r : UnicastReader) (pending : List (List UInt8)) : ℕ :=
  r.socket.unread.length + pending.length

/-- A round from `r` to `r'` keeps the place in the stream. When something has arrived, it makes
progress. -/
structure Advances (session : Session) (batches : List (List UInt8)) (capacity : ℕ)
    (r r' : UnicastReader) (reads : Readiness × Readiness) : Prop where
  dropped : r.delivery.dropped = true → r' = r
  place : ∀ done pending, ClientInv session batches capacity done pending r →
    ∃ done' pending', ClientInv session batches capacity done' pending' r' ∧
      left r' pending' ≤ left r pending ∧
      (FindsData reads → r'.delivery.dropped = true ∨ pending' = [] ∨
        left r' pending' < left r pending)

theorem clientReadTask_of_dropped {r : UnicastReader} (h : r.delivery.dropped = true)
    (reads : Readiness × Readiness) : clientReadTask session r reads = r := by
  rw [clientReadTask, if_pos h]

theorem zpUnicastRead_of_dropped {r : UnicastReader} (h : r.delivery.dropped = true)
    (reads : Readiness × Readiness) : zpUnicastRead session r reads = r := by
  rw [zpUnicastRead, if_pos h]

theorem zpUnicastRead_of_alive {r : UnicastReader} (h : r.delivery.dropped = false)
    (reads : Readiness × Readiness) : zpUnicastRead session r reads =
      clientReadTask session { r with zbuf := r.zbuf.reset } reads := by
  rw [zpUnicastRead, h, if_neg Bool.false_ne_true]

variable {batches : List (List UInt8)} {capacity : ℕ}

/-- A round of the background task -/
theorem clientReadTask_advances (hfits : FitsBuffer batches capacity) (r : UnicastReader)
    (reads : Readiness × Readiness) :
    Advances session batches capacity r (clientReadTask session r reads) reads := by
  refine ⟨fun h ↦ clientReadTask_of_dropped h reads, fun done pending h ↦ ?_⟩
  rw [clientReadTask]
  cases hdropped : r.delivery.dropped with
  | true => exact ⟨done, pending, h, le_rfl, fun _ ↦ .inl hdropped⟩
  | false =>
    obtain ⟨rest, hat, hrest⟩ := h.place
    obtain rfl := hrest hdropped
    have hfits' : FitsBuffer pending r.zbuf.capacity := by
      intro b hb
      rw [h.capacity_eq]
      exact hfits b (h.batches_eq ▸ mem_append_right _ hb)
    have houtcome := unicastClientRead_spec reads.1 reads.2 hat hfits'
    rcases hread : unicastClientRead r reads.1 reads.2 with ⟨result, r'⟩
    rw [hread] at houtcome
    rw [if_neg Bool.false_ne_true]
    cases houtcome with
    | waits hcapacity hpeer hdelivery hat' hunread hprogress =>
      refine ⟨done, pending, ⟨h.batches_eq, hcapacity.trans h.capacity_eq, ?_, _, hat', fun _ ↦ rfl⟩,
        ?_, fun hfinds ↦ ?_⟩
      · rw [hpeer, h.inactive]
      · exact Nat.add_le_add_right hunread _
      · by_cases hpending : pending = []
        · exact .inr (.inl hpending)
        · exact .inr (.inr (Nat.add_lt_add_right (hprogress hfinds hpending) _))
    | @batch _ rest size toRead hcapacity hpeer hdelivery hat' hrest hlength hsize hle hunread =>
      have hready : r'.peer.flowState ≠ .ready := by
        rw [hpeer, h.inactive]
        decide
      obtain ⟨pending', hpending, hat''⟩ := hat'.deliver hrest hlength hsize hle
      have hdeliver : (unicastProcessMessages session r' toRead).delivery =
          deliver session r'.delivery (r'.zbuf.readable.take toRead) := by
        rw [delivery_unicastProcessMessages, if_neg hready]
      have hsocket : (unicastProcessMessages session r' toRead).socket = r'.socket :=
        socket_unicastProcessMessages
      rw [← hdeliver, ← hsocket] at hat''
      have hpeer' : (unicastProcessMessages session r' toRead).peer.flowState = .inactive := by
        rw [flowState_unicastProcessMessages, hpeer, h.inactive]
      have hlt : left (unicastProcessMessages session r' toRead) pending' < left r pending := by
        rw [left, left, hsocket, hpending, length_cons]
        omega
      refine ⟨done ++ [r'.zbuf.readable.take toRead], pending',
        ⟨?_, ?_, hpeer', _, hat'', fun halive ↦ ?_⟩, hlt.le, fun _ ↦ .inr (.inr hlt)⟩
      · rw [← h.batches_eq, hpending, append_assoc, singleton_append]
      · rw [capacity_unicastProcessMessages, hcapacity, h.capacity_eq]
      · exact (readable_unicastProcessMessages hready halive).1.symm

/-- A call of `_zp_unicast_read` that finds the buffer empty loses nothing. -/
theorem zpUnicastRead_advances (hfits : FitsBuffer batches capacity) (r : UnicastReader)
    (reads : Readiness × Readiness)
    (hempty : r.delivery.dropped = false → r.zbuf.readable = []) :
    Advances session batches capacity r (zpUnicastRead session r reads) reads := by
  refine ⟨fun h ↦ zpUnicastRead_of_dropped h reads, fun done pending h ↦ ?_⟩
  cases hdropped : r.delivery.dropped with
  | true =>
    rw [zpUnicastRead_of_dropped hdropped]
    exact ⟨done, pending, h, le_rfl, fun _ ↦ .inl hdropped⟩
  | false =>
    obtain ⟨rest, hat, hrest⟩ := h.place
    have hreset : ClientInv session batches capacity done pending
        { r with zbuf := r.zbuf.reset } := by
      refine ⟨h.batches_eq, h.capacity_eq, h.inactive, rest, hat, fun _ ↦ ?_⟩
      rw [hrest hdropped, hempty hdropped]
      rfl
    rw [zpUnicastRead_of_alive hdropped]
    exact (clientReadTask_advances hfits _ reads).place done pending hreset

/-! ### Whole runs -/

/-- The state before a round of a run -/
def stateAt (step : UnicastReader → Readiness × Readiness → UnicastReader) (capacity : ℕ)
    (batches : List (List UInt8)) (rounds : List (Readiness × Readiness)) : UnicastReader :=
  rounds.foldl step (.init capacity batches)

theorem stateAt_append_singleton
    (step : UnicastReader → Readiness × Readiness → UnicastReader)
    (rounds : List (Readiness × Readiness)) (reads : Readiness × Readiness) :
    stateAt step capacity batches (rounds ++ [reads]) =
      step (stateAt step capacity batches rounds) reads := by
  rw [stateAt, foldl_append]
  rfl

variable {step : UnicastReader → Readiness × Readiness → UnicastReader}

/-- Rounds that advance keep the place in the stream, and enough of them with something to read
come to its end. -/
theorem stateAt_advances (hlt : ∀ b ∈ batches, b.length < 2 ^ 16)
    {rounds : List (Readiness × Readiness)}
    (hstep : ∀ before reads after, rounds = before ++ reads :: after →
      Advances session batches capacity (stateAt step capacity batches before)
        (step (stateAt step capacity batches before) reads) reads) : ∃ done pending,
      ClientInv session batches capacity done pending (stateAt step capacity batches rounds) ∧
      ((∀ reads ∈ rounds, FindsData reads) →
        (stateAt step capacity batches rounds).delivery.dropped = true ∨ pending = [] ∨
          left (stateAt step capacity batches rounds) pending + rounds.length ≤
            (batchFraming.stream batches).length + batches.length) := by
  induction rounds using List.reverseRecOn with
  | nil =>
    refine ⟨[], batches, ⟨rfl, rfl, rfl, [], ⟨rfl, rfl, rfl, hlt⟩, fun _ ↦ rfl⟩, fun _ ↦ ?_⟩
    exact .inr (.inr le_rfl)
  | append_singleton rounds reads ih =>
    obtain ⟨done, pending, hinv, hprogress⟩ := ih fun before reads' after heq ↦
      hstep before reads' (after ++ [reads]) (by rw [heq, append_assoc, cons_append])
    have hadvances := hstep rounds reads [] rfl
    obtain ⟨done', pending', hinv', hle, hlt'⟩ := hadvances.place done pending hinv
    rw [stateAt_append_singleton]
    refine ⟨done', pending', hinv', fun hfinds ↦ ?_⟩
    have hbefore := hprogress fun reads' hmem ↦ hfinds reads' (mem_append_left _ hmem)
    have hlast := hlt' (hfinds reads (mem_append_right _ mem_cons_self))
    rcases hbefore with hdropped | rfl | hsum
    · rw [hadvances.dropped hdropped]
      exact .inl hdropped
    · -- nothing is left of the stream, and nothing can be left after the round
      obtain ⟨rest, hat, -⟩ := hinv.place
      have hnil := (append_eq_nil_iff.mp hat.unread_eq).2
      rw [left, left, hnil, length_nil, length_nil] at hle
      exact .inr (.inl (eq_nil_of_length_eq_zero (by omega)))
    · rcases hlast with hdropped | hnil | hless
      · exact .inl hdropped
      · exact .inr (.inl hnil)
      · rw [length_append, length_singleton]
        exact .inr (.inr (by omega))

/-- A run at a place of the stream has handed over a part of its batches. -/
theorem ClientInv.exists_prefix {r : UnicastReader}
    (h : ClientInv session batches capacity done pending r) :
    ∃ done, done <+: batches ∧ r.delivery = deliverAll session done := by
  obtain ⟨rest, hat, -⟩ := h.place
  exact ⟨done, ⟨pending, h.batches_eq⟩, hat.delivery_eq⟩

/-- At the end of the stream, or after a failure, everything was handed over. -/
theorem ClientInv.delivery_eq {r : UnicastReader}
    (h : ClientInv session batches capacity done pending r)
    (hend : r.delivery.dropped = true ∨ pending = []) :
    r.delivery = deliverAll session batches := by
  obtain ⟨rest, hat, -⟩ := h.place
  rw [← h.batches_eq, hat.delivery_eq]
  rcases hend with hdropped | rfl
  · rw [hat.delivery_eq] at hdropped
    exact (deliverAll_append_of_dropped hdropped _).symm
  · rw [append_nil]

/-- Enough rounds with something to read: one for each byte and each batch. -/
def Enough (batches : List (List UInt8)) (rounds : List (Readiness × Readiness)) : Prop :=
  (∀ reads ∈ rounds, FindsData reads) ∧
    (batchFraming.stream batches).length + batches.length ≤ rounds.length

theorem delivery_eq_of_enough {step : UnicastReader → Readiness × Readiness → UnicastReader}
    (hlt : ∀ b ∈ batches, b.length < 2 ^ 16) {rounds : List (Readiness × Readiness)}
    (hstep : ∀ before reads after, rounds = before ++ reads :: after →
      Advances session batches capacity (stateAt step capacity batches before)
        (step (stateAt step capacity batches before) reads) reads)
    (henough : Enough batches rounds) :
    (stateAt step capacity batches rounds).delivery = deliverAll session batches := by
  obtain ⟨done, pending, hinv, hprogress⟩ := stateAt_advances hlt hstep
  refine hinv.delivery_eq ?_
  rcases hprogress henough.1 with hdropped | hnil | hsum
  · exact .inl hdropped
  · exact .inr hnil
  · have hcount := henough.2
    rw [left] at hsum
    exact .inr (eq_nil_of_length_eq_zero (by omega))

/-! ### Bytes that are lost -/

/-- The bytes of the stream that a run has handed over, or holds, or has still to read -/
def accounted (r : UnicastReader) : ℕ :=
  (batchFraming.stream r.delivery.handed).length + r.zbuf.len + r.socket.unread.length

theorem Recv.length_add {socket : Socket} {zbf : ZBuf} {data : List UInt8}
    {result : Option ℕ × Socket × ZBuf} (h : Recv socket zbf readiness data result) :
    result.2.2.len + result.2.1.unread.length = zbf.len + socket.unread.length := by
  rw [← ZBuf.length_readable, h.readable, ← h.unread, length_append, length_append,
    ZBuf.length_readable]
  omega

/-- A read of the stream accounts for all bytes. It finds no more than the buffer holds. -/
structure Accounts (r : UnicastReader) (result : Option ℕ × UnicastReader) : Prop where
  delivery : result.2.delivery = r.delivery
  peer : result.2.peer = r.peer
  waits : result.1 = none →
    result.2.zbuf.len + result.2.socket.unread.length = r.zbuf.len + r.socket.unread.length
  batch : ∀ toRead, result.1 = some toRead → toRead ≤ result.2.zbuf.len ∧
    msgLenEncSize + result.2.zbuf.len + result.2.socket.unread.length =
      r.zbuf.len + r.socket.unread.length

theorem clientRecvData_accounts (r : UnicastReader) {zbuf : ZBuf} (toRead : ℕ)
    (readiness : Readiness) (hzbuf : zbuf.len = r.zbuf.len) (hlen : msgLenEncSize ≤ zbuf.len) :
    Accounts r
      (let (_, socket, zbuf') :=
        linkSocketRecvZbuf r.socket (zbuf.skip msgLenEncSize) readiness
       if zbuf'.len < toRead then
         (none, { r with socket, zbuf := (zbuf'.unskip msgLenEncSize).compact })
       else (some toRead, { r with socket, zbuf := zbuf' })) := by
  obtain ⟨data, hrecv⟩ := linkSocketRecvZbuf_spec r.socket (zbuf.skip msgLenEncSize) readiness
  have hsum := hrecv.length_add
  have hunskip := congrArg List.length (hrecv.readable_unskip hlen)
  have hunread := congrArg List.length hrecv.unread
  rw [ZBuf.len_skip, hzbuf] at hsum
  rw [length_append] at hunskip hunread
  rcases hresult : linkSocketRecvZbuf r.socket (zbuf.skip msgLenEncSize) readiness
    with ⟨readSize, socket, zbuf'⟩
  rw [hresult] at hsum hunskip hunread
  dsimp only at hsum hunskip hunread ⊢
  rw [ZBuf.length_readable, ZBuf.length_readable, hzbuf] at hunskip
  rw [hzbuf] at hlen
  split_ifs with hshort
  · refine ⟨rfl, rfl, fun _ ↦ ?_, fun _ h ↦ by cases h⟩
    change (zbuf'.unskip msgLenEncSize).compact.len + socket.unread.length = _
    rw [← ZBuf.length_readable, ZBuf.readable_compact, ZBuf.length_readable, hunskip]
    omega
  · refine ⟨rfl, rfl, (fun h ↦ by cases h), fun n h ↦ ?_⟩
    obtain rfl := Option.some.inj h
    exact ⟨Nat.le_of_not_lt hshort, by dsimp only; omega⟩

theorem unicastClientReadData_accounts (r : UnicastReader) (readiness : Readiness)
    (hlen : msgLenEncSize ≤ r.zbuf.len) : Accounts r (unicastClientReadData r readiness) := by
  have hskip : r.zbuf.readStreamSize = (r.zbuf.readStreamSize.1, r.zbuf.skip msgLenEncSize) :=
    Prod.ext rfl r.zbuf.readStreamSize_snd
  have hcompact : r.zbuf.compact.readStreamSize =
      (r.zbuf.compact.readStreamSize.1, r.zbuf.compact.skip msgLenEncSize) :=
    Prod.ext rfl r.zbuf.compact.readStreamSize_snd
  have hsame : r.zbuf.compact.len = r.zbuf.len := by
    rw [← ZBuf.length_readable, ZBuf.readable_compact, ZBuf.length_readable]
  rw [unicastClientReadData, hskip]
  dsimp only
  rw [r.zbuf.unskip_skip hlen, hcompact]
  by_cases hshort : (r.zbuf.skip msgLenEncSize).len < r.zbuf.readStreamSize.1
  · rw [if_pos hshort]
    by_cases hroom : (r.zbuf.skip msgLenEncSize).spaceLeft <
        r.zbuf.readStreamSize.1 - (r.zbuf.skip msgLenEncSize).len
    · rw [if_pos hroom]
      exact clientRecvData_accounts r _ readiness hsame (hsame ▸ hlen)
    · rw [if_neg hroom]
      exact clientRecvData_accounts r _ readiness rfl hlen
  · rw [if_neg hshort]
    refine ⟨rfl, rfl, (fun h ↦ by cases h), fun n h ↦ ?_⟩
    obtain rfl := Option.some.inj h
    refine ⟨Nat.le_of_not_lt hshort, ?_⟩
    dsimp only
    rw [ZBuf.len_skip]
    omega

theorem unicastClientRead_accounts (r : UnicastReader) (first second : Readiness) :
    Accounts r (unicastClientRead r first second) := by
  rw [unicastClientRead]
  by_cases hlen : r.zbuf.len < msgLenEncSize
  · rw [if_pos hlen]
    obtain ⟨zbuf, hzbuf⟩ : ∃ zbuf, zbuf =
      if r.zbuf.spaceLeft < msgLenEncSize then r.zbuf.compact else r.zbuf := ⟨_, rfl⟩
    rw [← hzbuf]
    have hsame : zbuf.len = r.zbuf.len := by
      rw [hzbuf, ← ZBuf.length_readable, ← ZBuf.length_readable]
      split <;> rfl
    obtain ⟨data, hrecv⟩ := linkSocketRecvZbuf_spec r.socket zbuf first
    have hsum := hrecv.length_add
    rcases hresult : linkSocketRecvZbuf r.socket zbuf first with ⟨readSize, socket, zbuf'⟩
    rw [hresult, hsame] at hsum
    dsimp only at hsum
    simp only [hresult]
    by_cases hlen' : zbuf'.len < msgLenEncSize
    · rw [if_pos hlen']
      refine ⟨rfl, rfl, fun _ ↦ ?_, fun _ h ↦ by cases h⟩
      change zbuf'.compact.len + socket.unread.length = _
      rw [← ZBuf.length_readable, ZBuf.readable_compact, ZBuf.length_readable]
      exact hsum
    · rw [if_neg hlen']
      obtain ⟨hdelivery, hpeer, hwaits, hbatch⟩ := unicastClientReadData_accounts
        { r with socket, zbuf := zbuf' } second (Nat.le_of_not_lt hlen')
      refine ⟨hdelivery, hpeer, fun h ↦ (hwaits h).trans hsum, fun n h ↦ ?_⟩
      exact ⟨(hbatch n h).1, (hbatch n h).2.trans hsum⟩
  · rw [if_neg hlen]
    exact unicastClientReadData_accounts r second (Nat.le_of_not_lt hlen)

/-- A round of a task that goes on accounts for all bytes. -/
theorem accounted_clientReadTask {reads : Readiness × Readiness}
    (hinactive : r.peer.flowState = .inactive)
    (halive : (clientReadTask session r reads).delivery.dropped = false) :
    accounted (clientReadTask session r reads) = accounted r := by
  cases hdropped : r.delivery.dropped with
  | true => rw [clientReadTask_of_dropped hdropped]
  | false =>
    have haccounts := unicastClientRead_accounts r reads.1 reads.2
    rw [clientReadTask, hdropped, if_neg Bool.false_ne_true] at halive ⊢
    rcases hread : unicastClientRead r reads.1 reads.2 with ⟨result, r'⟩
    rw [hread] at haccounts halive
    rcases result with _ | toRead
    · have hsum := haccounts.waits rfl
      have hdelivery := haccounts.delivery
      dsimp only at hsum hdelivery ⊢
      rw [accounted, accounted, hdelivery]
      omega
    · obtain ⟨hle, hsum⟩ := haccounts.batch toRead rfl
      have hdelivery := haccounts.delivery
      have hready : r'.peer.flowState ≠ .ready := by
        rw [show r'.peer = r.peer from haccounts.peer, hinactive]
        decide
      dsimp only at hle hsum hdelivery halive ⊢
      have hreadable := (readable_unicastProcessMessages hready halive).1
      have hhanded : (unicastProcessMessages session r' toRead).delivery.handed =
          r.delivery.handed ++ [r'.zbuf.readable.take toRead] := by
        rw [delivery_unicastProcessMessages, if_neg hready, hdelivery, deliver, hdropped,
          if_neg Bool.false_ne_true]
      have hlength : (r'.zbuf.readable.take toRead).length = toRead := by
        rw [length_take, ZBuf.length_readable, min_eq_left hle]
      rw [accounted, accounted, hhanded, Framing.stream_append, Framing.stream_cons,
        Framing.stream_nil, append_nil, length_append, Framing.length_frame, hlength,
        ← ZBuf.length_readable, hreadable, length_drop, ZBuf.length_readable,
        socket_unicastProcessMessages]
      change _ + (msgLenEncSize + toRead) + _ + _ = _
      omega

/-- A call of `_zp_unicast_read` that goes on loses what was in the buffer. -/
theorem accounted_zpUnicastRead {reads : Readiness × Readiness}
    (hinactive : r.peer.flowState = .inactive)
    (halive : (zpUnicastRead session r reads).delivery.dropped = false) :
    accounted (zpUnicastRead session r reads) + r.zbuf.len = accounted r := by
  cases hdropped : r.delivery.dropped with
  | true =>
    rw [zpUnicastRead_of_dropped hdropped, hdropped] at halive
    cases halive
  | false =>
    rw [zpUnicastRead_of_alive hdropped] at halive ⊢
    have hround := @accounted_clientReadTask session { r with zbuf := r.zbuf.reset } reads
      hinactive halive
    rw [hround, accounted, accounted]
    have hreset : r.zbuf.reset.len = 0 := rfl
    dsimp only
    rw [hreset]
    omega

end Round

/-! ### The two readers -/

section Readers

variable {session : Session} {batches : List (List UInt8)} {capacity : ℕ}

/-- Every call of `_zp_unicast_read` finds the buffer empty. -/
def StartsEmpty (session : Session) (capacity : ℕ) (batches : List (List UInt8))
    (rounds : List (Readiness × Readiness)) : Prop :=
  ∀ before reads after, rounds = before ++ reads :: after →
    (runZpReads session capacity batches before).delivery.dropped = false →
      (runZpReads session capacity batches before).zbuf.readable = []

theorem StartsEmpty.take {rounds : List (Readiness × Readiness)}
    (h : StartsEmpty session capacity batches rounds) (n : ℕ) :
    StartsEmpty session capacity batches (rounds.take n) := by
  intro before reads after hsplit
  refine h before reads (after ++ rounds.drop n) ?_
  calc rounds = rounds.take n ++ rounds.drop n := (take_append_drop n rounds).symm
    _ = before ++ reads :: (after ++ rounds.drop n) := by
      rw [hsplit, append_assoc, cons_append]

/-- The rounds of the background task advance. -/
theorem readTask_advances (session : Session) (hfits : FitsBuffer batches capacity)
    (rounds : List (Readiness × Readiness)) :
    ∀ before reads after, rounds = before ++ reads :: after →
      Advances session batches capacity (stateAt (clientReadTask session) capacity batches before)
        (clientReadTask session (stateAt (clientReadTask session) capacity batches before) reads)
        reads :=
  fun _ reads _ _ ↦ clientReadTask_advances hfits _ reads

/-- The calls of `_zp_unicast_read` that find the buffer empty advance. -/
theorem zpReads_advances (hfits : FitsBuffer batches capacity)
    {rounds : List (Readiness × Readiness)}
    (hempty : StartsEmpty session capacity batches rounds) :
    ∀ before reads after, rounds = before ++ reads :: after →
      Advances session batches capacity (stateAt (zpUnicastRead session) capacity batches before)
        (zpUnicastRead session (stateAt (zpUnicastRead session) capacity batches before) reads)
        reads :=
  fun before reads after hsplit ↦
    zpUnicastRead_advances hfits _ reads (hempty before reads after hsplit)

theorem flowState_clientReadTask (r : UnicastReader) (reads : Readiness × Readiness) :
    (clientReadTask session r reads).peer.flowState = r.peer.flowState := by
  rw [clientReadTask]
  split_ifs
  · rfl
  · have hpeer := (unicastClientRead_accounts r reads.1 reads.2).peer
    rcases hread : unicastClientRead r reads.1 reads.2 with ⟨_ | toRead, r'⟩
    · rw [hread] at hpeer
      exact congrArg _ hpeer
    · rw [hread] at hpeer
      rw [← hpeer]
      exact flowState_unicastProcessMessages

theorem flowState_runZpReads (rounds : List (Readiness × Readiness)) :
    (runZpReads session capacity batches rounds).peer.flowState = .inactive := by
  induction rounds using List.reverseRecOn with
  | nil => rfl
  | append_singleton rounds reads ih =>
    rw [runZpReads, foldl_append]
    change (zpUnicastRead session (runZpReads session capacity batches rounds) reads).peer.flowState
      = _
    rw [zpUnicastRead]
    split_ifs
    · exact ih
    · rw [flowState_clientReadTask]
      exact ih

/-- A run that goes on has lost bytes, unless every call found the buffer empty. -/
theorem accounted_runZpReads (rounds : List (Readiness × Readiness))
    (halive : (runZpReads session capacity batches rounds).delivery.dropped = false) :
    accounted (runZpReads session capacity batches rounds) ≤
        (batchFraming.stream batches).length ∧
      (accounted (runZpReads session capacity batches rounds) =
          (batchFraming.stream batches).length → StartsEmpty session capacity batches rounds) := by
  induction rounds using List.reverseRecOn with
  | nil =>
    refine ⟨?_, fun _ before reads after heq ↦ ?_⟩
    · simp [runZpReads, accounted, UnicastReader.init, ZBuf.make, ZBuf.len]
    · simp at heq
  | append_singleton rounds reads ih =>
    have hrun : runZpReads session capacity batches (rounds ++ [reads]) =
        zpUnicastRead session (runZpReads session capacity batches rounds) reads := by
      rw [runZpReads, foldl_append]
      rfl
    rw [hrun] at halive ⊢
    have hsum := accounted_zpUnicastRead (flowState_runZpReads rounds) halive
    have hbefore : (runZpReads session capacity batches rounds).delivery.dropped = false := by
      cases hdropped : (runZpReads session capacity batches rounds).delivery.dropped with
      | false => rfl
      | true =>
        rw [zpUnicastRead_of_dropped hdropped, hdropped] at halive
        cases halive
    obtain ⟨hle, hempty⟩ := ih hbefore
    refine ⟨by omega, fun heq before reads' after hsplit ↦ ?_⟩
    rcases eq_nil_or_concat after with rfl | ⟨after', last, rfl⟩
    · obtain ⟨rfl, -⟩ := append_inj' hsplit rfl
      intro _
      rw [← length_eq_zero_iff, ZBuf.length_readable]
      omega
    · rw [concat_eq_append, ← cons_append, ← append_assoc] at hsplit
      obtain ⟨rfl, -⟩ := append_inj' hsplit rfl
      exact hempty (by omega) before reads' after' rfl

/-- The background task hands to message processing exactly the batches of the stream, in order,
once each, however the stream is cut into reads. Calls of `_zp_unicast_read` do the same when
every one of them finds the buffer empty, and, where no batch fails, only then. -/
theorem clientRead_delivers (session : Session) (capacity : ℕ) (batches : List (List UInt8))
    (rounds : List (Readiness × Readiness)) (hlt : ∀ b ∈ batches, b.length < 2 ^ 16)
    (hfits : FitsBuffer batches capacity) : (∀ n, ∃ done, done <+: batches ∧
      (runReadTask session capacity batches (rounds.take n)).delivery = deliverAll session done) ∧
    (Enough batches rounds →
      (runReadTask session capacity batches rounds).delivery = deliverAll session batches) ∧
    (StartsEmpty session capacity batches rounds → (∀ n, ∃ done, done <+: batches ∧
        (runZpReads session capacity batches (rounds.take n)).delivery = deliverAll session done) ∧
      (Enough batches rounds → (runZpReads session capacity batches rounds).delivery =
        (runReadTask session capacity batches rounds).delivery)) ∧
    ((deliverAll session batches).dropped = false → Enough batches rounds →
      (runZpReads session capacity batches rounds).delivery =
        (runReadTask session capacity batches rounds).delivery →
      StartsEmpty session capacity batches rounds) := by
  have hdelivers : Enough batches rounds →
      (runReadTask session capacity batches rounds).delivery = deliverAll session batches :=
    fun henough ↦ delivery_eq_of_enough hlt (readTask_advances session hfits rounds) henough
  refine ⟨fun n ↦ ?_, hdelivers, fun hempty ↦ ⟨fun n ↦ ?_, fun henough ↦ ?_⟩,
    fun hdropped henough heq ↦ ?_⟩
  · obtain ⟨done, pending, hinv, -⟩ :=
      stateAt_advances hlt (readTask_advances session hfits (rounds.take n))
    exact hinv.exists_prefix
  · obtain ⟨done, pending, hinv, -⟩ :=
      stateAt_advances hlt (zpReads_advances hfits (hempty.take n))
    exact hinv.exists_prefix
  · rw [hdelivers henough]
    exact delivery_eq_of_enough hlt (zpReads_advances hfits hempty) henough
  · rw [hdelivers henough] at heq
    have halive : (runZpReads session capacity batches rounds).delivery.dropped = false := by
      rw [heq, hdropped]
    obtain ⟨hle, hempty⟩ := accounted_runZpReads rounds halive
    refine hempty (le_antisymm hle ?_)
    rw [accounted, heq, handed_deliverAll hdropped]
    omega

end Readers

/-- Rounds that read so many bytes at most, as many as two batches of one byte need. -/
def rounds (n : ℕ) : List (Readiness × Readiness) := List.replicate 8 (.arrived (n + 1), .arrived 1)

theorem enough_rounds (n : ℕ) : Enough [[7], [8]] (rounds n) := by
  refine ⟨fun reads hmem ↦ ⟨n, 0, eq_of_mem_replicate hmem⟩, ?_⟩
  rw [rounds, length_replicate]
  decide

/-- Two batches of one byte, one of them in each read. -/
theorem clientRead_delivers_two : StartsEmpty (fun _ ↦ .released) 16 [[7], [8]] (rounds 2) ∧
      (runZpReads (fun _ ↦ .released) 16 [[7], [8]] (rounds 2)).delivery =
        (runReadTask (fun _ ↦ .released) 16 [[7], [8]] (rounds 2)).delivery := by
  have hempty : StartsEmpty (fun _ ↦ .released) 16 [[7], [8]] (rounds 2) := by
    have htake : ∀ k < 8, (runZpReads (fun _ ↦ .released) 16 [[7], [8]]
        ((rounds 2).take k)).zbuf.readable = [] := by
      decide +kernel
    intro before reads after hsplit _
    have hlength := congrArg List.length hsplit
    rw [rounds, length_replicate, length_append, length_cons] at hlength
    have hbefore := htake before.length (by omega)
    rwa [hsplit, take_left] at hbefore
  exact ⟨hempty, ((clientRead_delivers _ 16 _ (rounds 2) (by decide)
    (by decide)).2.2.1 hempty).2 (enough_rounds 2)⟩

/-- Two batches of one byte in a single read: the background task hands over both, and
`_zp_unicast_read` resets the buffer that holds the second. -/
theorem coalescedRead_loses_batch :
    ¬ ∀ (session : Session) (capacity : ℕ) (batches : List (List UInt8))
      (rounds : List (Readiness × Readiness)), (∀ b ∈ batches, b.length < 2 ^ 16) →
        FitsBuffer batches capacity → Enough batches rounds →
          (runZpReads session capacity batches rounds).delivery =
            (runReadTask session capacity batches rounds).delivery := by
  intro h
  have hsame := h (fun _ ↦ .released) 16 [[7], [8]] (rounds 5) (by decide) (by decide)
    (enough_rounds 5)
  exact absurd (congrArg Delivery.handed hsame) (by decide +kernel)

end ZenohPico.Transport
