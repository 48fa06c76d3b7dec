import FortyTwoHundred.Ftp.Request

/-!
# Client — `copy_file` of the client (`ftpclient.c`)

The client as a machine.  A step is one call into the environment together with the local code up to
the next one: a burst of `sendto` calls, or one receive.  The program counter names the loop the
client is in:

* `reqSend`, `reqRecv`: the `do … while` loop of `complete_request`;
* `pass`: a pass of the data loop `while (written != size)` (fill the window, send it whole, look at
  the clock);
* `drain`: the loop `while (1)` that empties the socket;
* `finTop`, `finRecv`: the closing loop and its receive calls.

The file is read through a parameter `fread : φ → ℕ → Bytes × φ`; `readFile` reads a file that does
not change, whose state is what is left of it.  Clock readings are inputs.  `removed` is a history
of the packets taken off the list.
-/

namespace FortyTwoHundred.Ftp

inductive ClientPc
  | reqSend | reqRecv | pass | drain | finTop | finRecv
  | done (e : Ending)
  deriving DecidableEq

/-- The variables of the client's `copy_file`; `φ` is the state of the open file. -/
structure Client (φ : Type) where
  pc : ClientPc
  buffer : Bytes
  request : Bytes
  startTime : ℤ
  file : φ
  size : ℤ
  written : ℤ
  read : ℤ
  sequence : UInt16
  packets : List Bytes
  lastACK : ℤ
  removed : List Bytes

/-- What a step of the client is given. -/
inductive ClientIn
  /-- results of `sendto`, and the clock -/
  | send (sendto : Bytes → Bool) (now : ℤ)
  /-- old contents of the receive block, outcome of `recvfrom`, and the clock -/
  | recv (temp : Bytes) (r : Recv) (now : ℤ)

/-- `fread` on a file that does not change: its state is the part not read yet. -/
def readFile (rest : Bytes) (n : ℕ) : Bytes × Bytes := (rest.take n, rest.drop n)

/-- Conversion of a `long` to `size_t`. -/
def toSizeT (x : ℤ) : ℕ := (x % 2 ^ 64).toNat

namespace Client

variable {φ : Type} (fread : φ → ℕ → Bytes × φ)

/-- The number of bytes asked from `fread`. -/
def remaining (c : Client φ) : ℕ :=
  if c.size - c.read < payloadSize then toSizeT (c.size - c.read) else payloadSize

/-- The body of the loop that fills the window. -/
def addPacket (c : Client φ) : Client φ :=
  let chunk := (fread c.file c.remaining).1
  { c with
    buffer := c.buffer.take headerSize ++ overlay chunk (c.buffer.drop headerSize)
    file := (fread c.file c.remaining).2
    packets := c.packets ++ [createPacket cmdData c.sequence (UInt16.ofNat chunk.length) chunk]
    sequence := c.sequence + 1
    read := c.read + chunk.length }

/-- `while (packets->size < WINDOW_SIZE && written < size)`; every turn adds a packet, so
`WINDOW_SIZE` turns are enough (`fill_full`). -/
def fillLoop : ℕ → Client φ → Client φ
  | 0, c => c
  | k + 1, c =>
    if c.packets.length < windowSize ∧ c.written < c.size then fillLoop k (addPacket fread c) else c

def fill (c : Client φ) : Client φ := fillLoop fread windowSize c

/-- The test that keeps a packet in the list although its number is not the acknowledged one. -/
def outside (acked f l : UInt16) : Prop :=
  (f ≤ l ∧ acked < f ∧ l < acked) ∨ (¬ f ≤ l ∧ f < acked ∧ acked < l)

instance (acked f l : UInt16) : Decidable (outside acked f l) := by unfold outside; infer_instance

/-- A packet `p` leaves the front of the list, `ps` stay. -/
def removeFront (now : ℤ) (p : Bytes) (ps : List Bytes) (c : Client φ) : Client φ :=
  { c with
    lastACK := now
    written := c.written + (getLen p).toNat
    packets := ps
    removed := c.removed ++ [p] }

/-- The loop that takes acknowledged packets off the list; its list argument is `c.packets`. -/
def releaseLoop (acked : UInt16) (now : ℤ) : List Bytes → Client φ → Client φ
  | [], c => c
  | p :: ps, c =>
    if acked = getSeqNum p then c
    else if outside acked (getSeqNum p) (getSeqNum ((p :: ps).getLastD p)) then c
    else releaseLoop acked now ps (c.removeFront now p ps)

def release (acked : UInt16) (now : ℤ) (c : Client φ) :
    Client φ := releaseLoop acked now c.packets c

/-- The test of the data loop: another pass, or on to the closing loop. -/
def loopTop (now : ℤ) (c : Client φ) : Client φ :=
  if c.written ≠ c.size then { c with pc := .pass } else { c with pc := .finTop, lastACK := now }

def finish (e : Ending) (c : Client φ) : Client φ := { c with pc := .done e }

/-- The rest of `complete_request` and the set-up of the transfer, after a datagram with this
command byte. -/
def reply (cmd : Byte) (now : ℤ) (c : Client φ) : Client φ :=
  if cmd = cmdAck then loopTop now { c with lastACK := now }
  else if cmd = cmdExists then c.finish (.exited .fileExists)
  else if cmd = cmdBadReq then c.finish (.exited .badRequest)
  -- any other command is let through
  else loopTop now { c with lastACK := now }

/-- One receive of `complete_request`, straight into `buffer`. -/
def recvReply (r : Recv) (now : ℤ) (c : Client φ) : Client φ :=
  let c := { c with buffer := overlay r.stored c.buffer }
  if r.ret < 0 ∧ now - c.startTime < 6 then { c with pc := .reqSend }
  else if r.ret < 1 then c.finish (.exited .timeout)
  else reply (command c.buffer) now c

/-- A pass of the data loop up to the first receive, with the datagrams sent. -/
def passStep (sendto : Bytes → Bool) (now : ℤ) (c : Client φ) : Client φ × List Bytes :=
  let c' := fill fread c
  let sent := sendAll sendto c'.packets
  if sent.2 then (c'.finish (.exited .runtimeError), sent.1)
  else if ackTimeout < now - c'.lastACK then (c'.finish (.exited .timeout), sent.1)
  else ({ c' with pc := .drain }, sent.1)

/-- A turn of the loop `while (1)` on the buffer `read_only_from` left. -/
def handle (rr : ReadResult) (now : ℤ) (c : Client φ) : Client φ :=
  let c := { c with read := rr.ret, buffer := rr.buffer }
  if rr.ret < 0 ∧ rr.again then loopTop now c
  else if command c.buffer = cmdAck then release (getSeqNum c.buffer) now c
  else if command c.buffer = cmdFin then
    if c.written < c.size then c.finish (.exited .badRequest) else loopTop now c
  else c

def finPacket : Bytes := createPacket cmdFin 0 0 []

/-- One receive of the closing loop. -/
def handleFin (rr : ReadResult) (c : Client φ) : Client φ :=
  let c := { c with buffer := rr.buffer }
  if 0 < rr.ret ∧ command c.buffer = cmdAck then c
  else if command c.buffer = cmdFinAck then c.finish (.returned .ok)
  else { c with pc := .finTop }

/-- One step, with the datagrams it sends; `none` if the client does not make that call here. -/
def step (wanted : Addr) (c : Client φ) : ClientIn → Option (Client φ × List Bytes)
  | .send sendto now =>
    match c.pc with
    | .reqSend =>
      if sendto c.request then some ({ c with pc := .reqRecv }, [sendPacket c.request])
      else some (c.finish (.exited .runtimeError), [])
    | .pass => some (passStep fread sendto now c)
    | .finTop =>
      if now - c.lastACK < ackTimeout then
        -- the result of this send is not looked at
        some ({ c with pc := .finRecv }, if sendto finPacket then [finPacket] else [])
      else some (c.finish (.returned .ok), [])
    | _ => none
  | .recv temp r now =>
    match c.pc with
    | .reqRecv => some (recvReply r now c, [])
    | .drain => some (handle (readOnlyFrom wanted c.buffer temp r) now c, [])
    | .finRecv => some (handleFin (readOnlyFrom wanted c.buffer temp r) c, [])
    | _ => none

/-- What a step can do, one constructor for each loop of the code. -/
inductive Trans (wanted : Addr) (c : Client φ) : ClientIn → Client φ → List Bytes → Prop
  | request {sendto now} (hpc : c.pc = .reqSend) (hs : sendto c.request = true) :
      Trans wanted c (.send sendto now) { c with pc := .reqRecv } [sendPacket c.request]
  | noRequest {sendto now} (hpc : c.pc = .reqSend) :
      Trans wanted c (.send sendto now) (c.finish (.exited .runtimeError)) []
  | reply {temp r now} (hpc : c.pc = .reqRecv) :
      Trans wanted c (.recv temp r now) (recvReply r now c) []
  | pass {sendto now} (hpc : c.pc = .pass) :
      Trans wanted c (.send sendto now)
      (passStep fread sendto now c).1 (passStep fread sendto now c).2
  | drain {temp r now} (hpc : c.pc = .drain) :
      Trans wanted c (.recv temp r now) (handle ⟨r.ret, r.again, overlay r.stored temp⟩ now c) []
  | fin {sendto now} (hpc : c.pc = .finTop) (ht : now - c.lastACK < ackTimeout) :
      Trans wanted c (.send sendto now) { c with pc := .finRecv }
      (if sendto finPacket then [finPacket] else [])
  | finTimeout {sendto now} (hpc : c.pc = .finTop) (ht : ¬ now - c.lastACK < ackTimeout) :
      Trans wanted c (.send sendto now) (c.finish (.returned .ok)) []
  | finRecv {temp r now} (hpc : c.pc = .finRecv) :
      Trans wanted c (.recv temp r now) (handleFin ⟨r.ret, r.again, overlay r.stored temp⟩ c) []

/-- **Inversion**: every step is one of the transitions. -/
theorem trans_of_step {fread : φ → ℕ → Bytes × φ} {wanted : Addr} {c d : Client φ} {i : ClientIn}
    {out : List Bytes} (h : step fread wanted c i = some (d, out)) :
    Trans fread wanted c i d out := by
  cases i with
  | send sendto now =>
    cases hpc : c.pc with
    | reqSend =>
      simp only [step, hpc] at h
      split_ifs at h with hs <;> obtain ⟨rfl, rfl⟩ := Prod.mk.inj (Option.some.inj h)
      · exact .request hpc hs
      · exact .noRequest hpc
    | pass =>
      simp only [step, hpc, Option.some.injEq] at h
      have hp : Trans fread wanted c (.send sendto now) (passStep fread sendto now c).1
          (passStep fread sendto now c).2 := .pass hpc
      rwa [h] at hp
    | finTop =>
      simp only [step, hpc] at h
      by_cases ht : now - c.lastACK < ackTimeout
      · rw [if_pos ht] at h
        obtain ⟨rfl, rfl⟩ := Prod.mk.inj (Option.some.inj h)
        exact .fin hpc ht
      · rw [if_neg ht] at h
        obtain ⟨rfl, rfl⟩ := Prod.mk.inj (Option.some.inj h)
        exact .finTimeout hpc ht
    | _ => simp [step, hpc] at h
  | recv temp r now =>
    cases hpc : c.pc with
    | reqRecv =>
      simp only [step, hpc, Option.some.injEq, Prod.mk.injEq] at h
      obtain ⟨rfl, rfl⟩ := h
      exact .reply hpc
    | drain =>
      simp only [step, hpc, Option.some.injEq, Prod.mk.injEq] at h
      obtain ⟨rfl, rfl⟩ := h
      exact .drain hpc
    | finRecv =>
      simp only [step, hpc, Option.some.injEq, Prod.mk.injEq] at h
      obtain ⟨rfl, rfl⟩ := h
      exact .finRecv hpc
    | _ => simp [step, hpc] at h

end Client

/-- The client at the start of `copy_file`: the file and its `st_size`, and the request to send. -/
def Client.init {φ : Type} (file : φ) (size : ℕ) (name : Bytes) (now : ℤ) : Client φ where
  pc := .reqSend
  -- `char buffer[PACKET_SIZE] = {0}`, then the text of the request
  buffer := List.replicate headerSize 0 ++ overlay (requestText name size)
    (List.replicate payloadSize 0)
  request := requestPacket name size
  startTime := now
  file := file
  size := size
  written := 0
  read := 0
  sequence := 1
  packets := []
  lastACK := now
  removed := []

/-! ## The loops -/

namespace Client

variable {φ : Type}

/-- The range test of the release loop never holds: for `f ≤ l` no number is below `f` and above
`l`. -/
theorem not_outside (acked f l : UInt16) : ¬ outside acked f l := by
  simp only [outside, UInt16.le_iff_toNat_le, UInt16.lt_iff_toNat_lt]
  omega

/-- Induction over the turns of the release loop. -/
theorem release_induct {I : Client φ → Prop} {acked : UInt16} {now : ℤ}
    (hrem : ∀ c p ps, I c → c.packets = p :: ps → acked ≠ getSeqNum p → I (c.removeFront now p ps))
    {c : Client φ} (hc : I c) : I (release acked now c) := by
  have key : ∀ (ps : List Bytes) (c : Client φ), c.packets = ps → I c →
      I (releaseLoop acked now ps c) := by
    intro ps
    induction ps with
    | nil => intro c _ hc; exact hc
    | cons p ps ih =>
      intro c hps hc
      rw [releaseLoop]
      split_ifs with h1 h2
      · exact hc
      · exact hc
      · exact ih _ rfl (hrem c p ps hc hps h1)
  exact key c.packets c rfl hc

/-- **The release loop**: it stops at the first packet with the acknowledged number, and if there is
none it takes the whole list. -/
theorem release_packets (acked : UInt16) (now : ℤ) (c : Client φ) :
    (release acked now c).packets = c.packets.dropWhile (getSeqNum · != acked) ∧
      (release acked now c).removed = c.removed ++ c.packets.takeWhile (getSeqNum · != acked) := by
  have key : ∀ (ps : List Bytes) (c : Client φ), c.packets = ps →
      (releaseLoop acked now ps c).packets = ps.dropWhile (getSeqNum · != acked) ∧
        (releaseLoop acked now ps c).removed = c.removed ++ ps.takeWhile
        (getSeqNum · != acked) := by
    intro ps
    induction ps with
    | nil => intro c hps; simp [releaseLoop, hps]
    | cons p ps ih =>
      intro c hps
      rw [releaseLoop, if_neg (not_outside _ _ _)]
      by_cases h : acked = getSeqNum p
      · simp [h, hps]
      · have hne : (getSeqNum p != acked) = true := by simpa using fun e => h e.symm
        obtain ⟨h1, h2⟩ := ih (c.removeFront now p ps) rfl
        rw [if_neg h, h1, h2]
        simp [removeFront, hne]
  exact key c.packets c rfl

theorem release_frame (acked : UInt16) (now : ℤ) (c : Client φ) :
    (release acked now c).pc = c.pc ∧ (release acked now c).size = c.size ∧
      (release acked now c).file = c.file ∧ (release acked now c).sequence = c.sequence := by
  refine release_induct (I := fun d => d.pc = c.pc ∧ d.size = c.size ∧ d.file = c.file ∧
    d.sequence = c.sequence) ?_ ⟨rfl, rfl, rfl, rfl⟩
  intro d p ps h _ _
  exact h

/-- Induction over the turns of the loop that fills the window. -/
theorem fill_induct {I : Client φ → Prop} {fread : φ → ℕ → Bytes × φ}
    (hadd : ∀ c, I c → c.packets.length < windowSize → c.written < c.size → I (addPacket fread c))
    {c : Client φ} (hc : I c) : I (fill fread c) := by
  have key : ∀ (k : ℕ) (c : Client φ), I c → I (fillLoop fread k c) := by
    intro k
    induction k with
    | zero => intro c hc; exact hc
    | succ k ih =>
      intro c hc
      rw [fillLoop]
      split_ifs with h
      · exact ih _ (hadd c hc h.1 h.2)
      · exact hc
  exact key windowSize c hc

theorem fill_frame (fread : φ → ℕ → Bytes × φ) (c : Client φ) :
    (fill fread c).removed = c.removed ∧ (fill fread c).written = c.written ∧
    (fill fread c).size = c.size ∧
      (fill fread c).lastACK = c.lastACK ∧ (fill fread c).request = c.request := by
  refine fill_induct (I := fun d => d.removed = c.removed ∧ d.written = c.written ∧
    d.size = c.size ∧
    d.lastACK = c.lastACK ∧ d.request = c.request) ?_ ⟨rfl, rfl, rfl, rfl, rfl⟩
  intro d h _ _
  exact h

/-- The fuel of the fill loop is enough: its condition is false at the end. -/
theorem fill_full (fread : φ → ℕ → Bytes × φ) (c : Client φ) :
    ¬ ((fill fread c).packets.length < windowSize ∧
      (fill fread c).written < (fill fread c).size) := by
  have key : ∀ (k : ℕ) (c : Client φ), windowSize ≤ c.packets.length + k →
      ¬ ((fillLoop fread k c).packets.length < windowSize ∧
        (fillLoop fread k c).written < (fillLoop fread k c).size) := by
    intro k
    induction k with
    | zero =>
      intro c hk h
      rw [fillLoop] at h
      omega
    | succ k ih =>
      intro c hk
      rw [fillLoop]
      split_ifs with h
      · refine ih _ ?_
        simp only [addPacket, List.length_append, List.length_singleton]
        omega
      · exact h
  exact key windowSize c (by omega)

/-! ## What every step keeps -/

/-- Number of packets created so far. -/
def created (c : Client φ) : ℕ := c.removed.length + c.packets.length

/-- The client has left the data loop by its test. -/
def left (c : Client φ) : Prop := c.pc = .finTop ∨ c.pc = .finRecv ∨ c.pc = .done (.returned .ok)

theorem release_created (acked : UInt16) (now : ℤ) (c : Client φ) :
    (release acked now c).created = c.created := by
  refine release_induct (I := fun d => d.created = c.created) ?_ rfl
  intro d p ps hd hps _
  rw [← hd, created, created, hps]
  simp [removeFront]
  omega

theorem created_le_fill (fread : φ → ℕ → Bytes × φ) (c : Client φ) :
    c.created ≤ (fill fread c).created := by
  refine fill_induct (I := fun d => c.created ≤ d.created) ?_ le_rfl
  intro d hd _ _
  refine hd.trans ?_
  simp only [created, addPacket, List.length_append]
  omega

theorem loopTop_created (now : ℤ) (c : Client φ) : (loopTop now c).created = c.created := by
  rw [loopTop]
  split_ifs <;> rfl

theorem handle_created (rr : ReadResult) (now : ℤ) (c : Client φ) :
    (handle rr now c).created = c.created := by
  rw [handle]
  dsimp only
  split_ifs
  · rw [loopTop_created]; rfl
  · rw [release_created]; rfl
  · rfl
  · rw [loopTop_created]; rfl
  · rfl

theorem handleFin_frame (rr : ReadResult) (c : Client φ) :
    (handleFin rr c).created = c.created ∧ (c.pc = .finRecv → (handleFin rr c).left) := by
  rw [handleFin]
  dsimp only
  split_ifs
  · exact ⟨rfl, fun hpc => Or.inr (Or.inl hpc)⟩
  · exact ⟨rfl, fun _ => Or.inr (Or.inr rfl)⟩
  · exact ⟨rfl, fun _ => Or.inl rfl⟩

theorem recvReply_created (r : Recv) (now : ℤ) (c : Client φ) :
    (recvReply r now c).created = c.created := by
  rw [recvReply]
  dsimp only
  split_ifs
  · rfl
  · rfl
  · rw [reply]
    split_ifs
    · rw [loopTop_created]; rfl
    · rfl
    · rfl
    · rw [loopTop_created]; rfl

theorem passStep_created (fread : φ → ℕ → Bytes × φ) (sendto : Bytes → Bool) (now : ℤ)
    (c : Client φ) : (passStep fread sendto now c).1.created = (fill fread c).created := by
  rw [passStep]
  split_ifs <;> rfl

/-- Packets are only ever added. -/
theorem created_le_of_step {fread : φ → ℕ → Bytes × φ} {wanted : Addr} {c d : Client φ}
    {i : ClientIn} {out : List Bytes} (h : step fread wanted c i = some (d, out)) :
    c.created ≤ d.created := by
  cases trans_of_step h with
  | reply hpc => rw [recvReply_created]
  | pass hpc => rw [passStep_created]; exact created_le_fill fread c
  | drain hpc => rw [handle_created]
  | finRecv hpc => rw [(handleFin_frame _ c).1]
  | _ => rfl

theorem request_of_loopTop (now : ℤ) (c : Client φ) : (loopTop now c).request = c.request := by
  rw [loopTop]
  split_ifs <;> rfl

/-- The request is not changed. -/
theorem request_of_step {fread : φ → ℕ → Bytes × φ} {wanted : Addr} {c d : Client φ} {i : ClientIn}
    {out : List Bytes} (h : step fread wanted c i = some (d, out)) : d.request = c.request := by
  have hrel : ∀ (acked : UInt16) (now : ℤ) (c : Client φ), (release acked now c).request =
      c.request :=
    fun acked now c => release_induct (I := fun d => d.request = c.request)
      (fun _ _ _ h _ _ => h) rfl
  cases trans_of_step h with
  | reply hpc =>
    rw [recvReply]
    dsimp only
    split_ifs
    · rfl
    · rfl
    · rw [reply]
      split_ifs
      · rw [request_of_loopTop]
      · rfl
      · rfl
      · rw [request_of_loopTop]
  | pass hpc =>
    rw [← (fill_frame fread c).2.2.2.2, passStep]
    split_ifs <;> rfl
  | drain hpc =>
    rw [handle]
    dsimp only
    split_ifs
    · rw [request_of_loopTop]
    · rw [hrel]
    · rfl
    · rw [request_of_loopTop]
    · rfl
  | finRecv hpc =>
    rw [handleFin]
    dsimp only
    split_ifs <;> rfl
  | _ => rfl

/-- Once the data loop is left, the client does not come back to it. -/
theorem left_of_step {fread : φ → ℕ → Bytes × φ} {wanted : Addr} {c d : Client φ} {i : ClientIn}
    {out : List Bytes} (hl : c.left) (h : step fread wanted c i = some (d, out)) : d.left := by
  cases trans_of_step h with
  | fin hpc ht => exact Or.inr (Or.inl rfl)
  | finTimeout hpc ht => exact Or.inr (Or.inr rfl)
  | finRecv hpc => exact (handleFin_frame _ c).2 hpc
  | _ => simp [left, *] at hl

/-- The request has been answered. -/
def InData (c : Client φ) : Prop := c.pc ≠ .reqSend ∧ c.pc ≠ .reqRecv

theorem left.inData {c : Client φ} (h : c.left) : c.InData := by
  rcases h with h | h | h
  · exact ⟨by simp [h], by simp [h]⟩
  · exact ⟨by simp [h], by simp [h]⟩
  · exact ⟨by simp [h], by simp [h]⟩

theorem loopTop_pc (now : ℤ) (c : Client φ) : (loopTop now c).pc = .pass ∨
    (loopTop now c).pc = .finTop := by
  rw [loopTop]
  split_ifs
  · exact Or.inl rfl
  · exact Or.inr rfl

/-- Where a pass of the data loop can lead to. -/
theorem passStep_pc (fread : φ → ℕ → Bytes × φ) (sendto : Bytes → Bool) (now : ℤ) (c : Client φ) :
    (passStep fread sendto now c).1.pc = .drain ∨ (passStep fread sendto now c).1.pc =
      .done (.exited .runtimeError) ∨ (passStep fread sendto now c).1.pc =
        .done (.exited .timeout) := by
  rw [passStep]
  split_ifs
  · exact Or.inr (Or.inl rfl)
  · exact Or.inr (Or.inr rfl)
  · exact Or.inl rfl

/-- Where a turn of the receive loop can lead to. -/
theorem handle_pc {c : Client φ} (hpc : c.pc = .drain) (rr : ReadResult) (now : ℤ) :
    (handle rr now c).pc = .drain ∨ (handle rr now c).pc = .pass ∨ (handle rr now c).pc = .finTop ∨
      (handle rr now c).pc = .done (.exited .badRequest) := by
  have htop : ∀ d : Client φ, (loopTop now d).pc = .drain ∨ (loopTop now d).pc = .pass ∨
      (loopTop now d).pc = .finTop ∨
      (loopTop now d).pc = .done (.exited .badRequest) := by
    intro d
    rcases loopTop_pc now d with h | h
    · exact Or.inr (Or.inl h)
    · exact Or.inr (Or.inr (Or.inl h))
  rw [handle]
  dsimp only
  split_ifs
  · exact htop _
  · rw [(release_frame _ _ _).1]
    exact Or.inl hpc
  · exact Or.inr (Or.inr (Or.inr rfl))
  · exact htop _
  · exact Or.inl hpc

theorem InData.loopTop (now : ℤ) (c : Client φ) : (loopTop now c).InData := by
  rcases loopTop_pc now c with h | h
  · exact ⟨by simp [h], by simp [h]⟩
  · exact ⟨by simp [h], by simp [h]⟩

theorem InData.step {fread : φ → ℕ → Bytes × φ} {wanted : Addr} {c d : Client φ} {i : ClientIn}
    {out : List Bytes} (h : c.InData) (hs : step fread wanted c i = some (d, out)) : d.InData := by
  cases trans_of_step hs with
  | request hpc hsend => exact absurd hpc h.1
  | noRequest hpc => exact absurd hpc h.1
  | reply hpc => exact absurd hpc h.2
  | @pass sendto now hpc =>
    rcases passStep_pc fread sendto now c with hp | hp | hp
    all_goals exact ⟨by simp [hp], by simp [hp]⟩
  | @drain temp r now hpc =>
    rcases handle_pc hpc ⟨r.ret, r.again, overlay r.stored temp⟩ now with hp | hp | hp | hp
    all_goals exact ⟨by simp [hp], by simp [hp]⟩
  | fin hpc ht => exact ⟨by simp, by simp⟩
  | finTimeout hpc ht => exact ⟨by simp [finish], by simp [finish]⟩
  | finRecv hpc => exact left.inData ((handleFin_frame _ c).2 hpc)

end Client

end FortyTwoHundred.Ftp
