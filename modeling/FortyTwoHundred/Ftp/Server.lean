import FortyTwoHundred.Lib.Machine
import FortyTwoHundred.Ftp.Request

/-!
# Server — `copy_file` of the server child (`ftpserver.c`)

The child as a machine whose steps are its calls into the environment, each with the local code up
to the next one.  The file-system calls (`access`, `fopen`, `fwrite`, `unlink`) are steps of their
own.  What a step does to the outside is a list of `Effect`s: datagrams sent, and what happens to
the file.

* `start`, `access`, `fopen`, `deny`: the request, its checks and the refusals;
* `ackRequest`: the loop that acknowledges the request;
* `poll`: the loop of `read_until_timeout`, called by the receive loop `while (1)`;
* `write`: the `fwrite` of an accepted packet; `unlink`: the clean-up before an `exit`;
* `finackTop`, `finackRecv`: the closing loop.

`Solo` is a child with the file of that name as it finds and leaves it in the directory.  The file
has the bytes that `fwrite` has taken; when they get from the stream to the disk is a matter of its
buffer.
-/

namespace FortyTwoHundred.Ftp

inductive ChildPc
  | start | access | fopen
  | deny (cmd : Byte) (status : Status)
  | ackRequest (startTime : ℤ)
  | poll (startTime : ℤ)
  | write (pending : Bytes)
  | unlink (status : Status)
  | finackTop (t : ℤ)
  | finackRecv (t : ℤ)
  | done (e : Ending)
  deriving DecidableEq

/-- The variables of the child's `copy_file`; `accepted` is a history of the accepted `DATA`
packets. -/
structure Child where
  pc : ChildPc
  buffer : Bytes
  filename : Bytes
  sizeText : Bytes
  filesize : ℤ
  read : ℤ
  expectedSequence : UInt16
  accepted : List Bytes

inductive ChildIn
  /-- `setup_socket` -/
  | setup (ok : Bool)
  | access (found : Bool)
  | fopen (ok : Bool) (now : ℤ)
  /-- result of `sendto`, whether `errno` then says `EAGAIN`, and the clock -/
  | send (ok again : Bool) (now : ℤ)
  /-- the clock, old contents of the receive block, memory after the buffer, and outcome of
  `recvfrom` -/
  | poll (now : ℤ) (temp : Bytes) (beyond : ℕ → Byte) (r : Recv)
  /-- number of bytes `fwrite` wrote, and the clock -/
  | fwrite (n : ℕ) (now : ℤ)
  | unlink

inductive Effect
  | send (d : Bytes)
  | create
  | append (bs : Bytes)
  | unlink
  deriving DecidableEq

def ackPacket (s : UInt16) : Bytes := createPacket cmdAck s 0 []
def finAckPacket : Bytes := createPacket cmdFinAck 0 0 []

namespace Child

/-- The child that `process_connections` forks for a datagram: the datagram in a zeroed buffer. -/
def init (datagram : Bytes) : Child where
  pc := .start
  buffer := overlay (datagram.take packetSize) (List.replicate packetSize 0)
  filename := []
  sizeText := []
  filesize := -1
  read := 0
  expectedSequence := 1
  accepted := []

def finish (e : Ending) (c : Child) : Child := { c with pc := .done e }

/-- From the set-up of the socket to the existence check. -/
def parse (ok : Bool) (c : Child) : Child :=
  if !ok then c.finish (.returned .runtimeError)
  else if command c.buffer ≠ cmdWrq ∧ getSeqNum c.buffer ≠ 0 then
    { c with pc := .deny cmdBadReq .badRequest }
  else match parseRequest (c.buffer.drop headerSize) with
    | none => { c with pc := .deny cmdBadReq .badRequest }
    | some req => { c with pc := .access, filename := req.filename, sizeText := req.sizeText }

/-- After `access`: the size of the file is read once the name is known to be free. -/
def check (found : Bool) (c : Child) : Child :=
  if found then { c with pc := .deny cmdExists .fileExists }
  else match scanSize c.sizeText with
    | none => c.finish (.returned .badRequest)
    | some v =>
      if v < 0 then c.finish (.returned .badRequest) else { c with pc := .fopen, filesize := v }

/-- A turn of the receive loop on the datagram in the buffer.  The results of the sends are not
looked at. -/
def handle (now : ℤ) (beyond : ℕ → Byte) (c : Child) : Child × List Effect :=
  if command c.buffer = cmdData then
    if getSeqNum c.buffer ≠ c.expectedSequence then
      ({ c with pc := .poll now }, [.send (ackPacket c.expectedSequence)])
    else
      ({ c with
          pc := .write (peek c.buffer beyond headerSize (getLen c.buffer).toNat)
          expectedSequence := c.expectedSequence + 1
          read := c.read + (getLen c.buffer).toNat
          accepted := c.accepted ++ [packetOf c.buffer] },
        [.send (ackPacket (c.expectedSequence + 1))])
  else if command c.buffer = cmdFin then
    if c.read ≠ c.filesize then ({ c with pc := .unlink .badRequest }, [])
    else ({ c with pc := .finackTop now }, [])
  else ({ c with pc := .poll now }, [])

/-- A turn of the loop of `read_until_timeout`, and what follows when it returns. -/
def pollStep (origin : Addr) (startTime now : ℤ) (temp : Bytes) (beyond : ℕ → Byte) (r : Recv)
    (c : Child) : Child × List Effect :=
  if now - startTime < 6 then
    let rr := readOnlyFrom origin c.buffer temp r
    let c := { c with buffer := rr.buffer }
    if 0 < rr.ret then c.handle now beyond else (c, [])
  else ({ c with pc := .unlink .timeout }, [])

theorem pollStep_eq (origin : Addr) (startTime now : ℤ) (temp : Bytes) (beyond : ℕ → Byte)
    (r : Recv) (c : Child) : c.pollStep origin startTime now temp beyond r =
      if now - startTime < 6 then
        if 0 < r.ret then { c with buffer := overlay r.stored temp }.handle now beyond
        else ({ c with buffer := overlay r.stored temp }, [])
      else ({ c with pc := .unlink .timeout }, []) := rfl

/-- After `fwrite` wrote `n` of the pending bytes. -/
def afterWrite (pending : Bytes) (n : ℕ) (now : ℤ) (c : Child) : Child :=
  if n ≠ pending.length then c.finish (.returned .runtimeError)
  else if c.filesize < c.read then { c with pc := .unlink .badRequest }
  else { c with pc := .poll now }

/-- One receive of the closing loop; its result is kept in a `size_t`, so `r > 0` holds for a
failure too. -/
def finackStep (origin : Addr) (t : ℤ) (temp : Bytes) (r : Recv) (c : Child) : Child :=
  let rr := readOnlyFrom origin c.buffer temp r
  if rr.ret ≠ 0 ∧ command rr.buffer = cmdAck then
    { c with buffer := rr.buffer, pc := .done (.returned .ok) }
  else { c with buffer := rr.buffer, pc := .finackTop t }

theorem finackStep_eq (origin : Addr) (t : ℤ) (temp : Bytes) (r : Recv) (c : Child) :
    c.finackStep origin t temp r =
      if r.ret ≠ 0 ∧ command (overlay r.stored temp) = cmdAck then
        { c with buffer := overlay r.stored temp, pc := .done (.returned .ok) }
      else { c with buffer := overlay r.stored temp, pc := .finackTop t } := rfl

/-- One step with its effects; `none` if the child does not make that call here. -/
def step (origin : Addr) (c : Child) (i : ChildIn) : Option (Child × List Effect) :=
  match c.pc, i with
  | .start, .setup ok => some (c.parse ok, [])
  | .access, .access found => some (c.check found, [])
  | .fopen, .fopen ok now =>
    if ok then some ({ c with pc := .ackRequest now }, [.create])
    else some ({ c with pc := .deny cmdExists .cannotCreate }, [])
  | .deny cmd status, .send ok _ _ =>
    if ok then some (c.finish (.returned status), [.send (createPacket cmd 0 0 [])])
    else some (c.finish (.exited .runtimeError), [])
  | .ackRequest startTime, .send ok again now =>
    if !ok then some ({ c with pc := .unlink .runtimeError }, [])
    else if again && decide (now - startTime < 6) then some (c, [.send (ackPacket 1)])
    else some ({ c with pc := .poll now }, [.send (ackPacket 1)])
  | .poll startTime, .poll now temp beyond r => some (c.pollStep origin startTime now temp beyond r)
  | .write pending, .fwrite n now =>
    if n ≤ pending.length then some (c.afterWrite pending n now, [.append (pending.take n)])
      else none
  | .unlink status, .unlink => some (c.finish (.exited status), [.unlink])
  | .finackTop t, .send ok _ now =>
    if now - t < ackTimeout then some ({ c with pc := .finackRecv t },
      if ok then [.send finAckPacket] else [])
    else some (c.finish (.returned .ok), [])
  | .finackRecv t, .poll _ temp _ r => some (c.finackStep origin t temp r, [])
  | _, _ => none

/-- What a step can do, one constructor for each call and outcome. -/
inductive Trans (origin : Addr) (c : Child) : ChildIn → Child → List Effect → Prop
  | start {ok} (hpc : c.pc = .start) : Trans origin c (.setup ok) (c.parse ok) []
  | access {found} (hpc : c.pc = .access) : Trans origin c (.access found) (c.check found) []
  | create {now} (hpc : c.pc = .fopen) :
      Trans origin c (.fopen true now) { c with pc := .ackRequest now } [.create]
  | noCreate {now} (hpc : c.pc = .fopen) :
      Trans origin c (.fopen false now) { c with pc := .deny cmdExists .cannotCreate } []
  | denied {cmd status again now} (hpc : c.pc = .deny cmd status) :
      Trans origin c (.send true again now) (c.finish (.returned status))
      [.send (createPacket cmd 0 0 [])]
  | notDenied {cmd status again now} (hpc : c.pc = .deny cmd status) :
      Trans origin c (.send false again now) (c.finish (.exited .runtimeError)) []
  | noAck {startTime again now} (hpc : c.pc = .ackRequest startTime) :
      Trans origin c (.send false again now) { c with pc := .unlink .runtimeError } []
  | ackAgain {startTime now} (hpc : c.pc = .ackRequest startTime) (ht : now - startTime < 6) :
      Trans origin c (.send true true now) c [.send (ackPacket 1)]
  | ack {startTime again now} (hpc : c.pc = .ackRequest startTime)
      (ht : ¬ (again = true ∧ now - startTime < 6)) :
      Trans origin c (.send true again now) { c with pc := .poll now } [.send (ackPacket 1)]
  | idle {startTime now temp beyond r} (hpc : c.pc = .poll startTime) (ht : now - startTime < 6)
      (hr : ¬ 0 < r.ret) :
      Trans origin c (.poll now temp beyond r) { c with buffer := overlay r.stored temp } []
  | timeout {startTime now temp beyond r} (hpc : c.pc = .poll startTime)
      (ht : ¬ now - startTime < 6) :
      Trans origin c (.poll now temp beyond r) { c with pc := .unlink .timeout } []
  | datagram {startTime now temp beyond r} (hpc : c.pc = .poll startTime) (ht : now - startTime < 6)
      (hr : 0 < r.ret) : Trans origin c (.poll now temp beyond r)
      ({ c with buffer := overlay r.stored temp }.handle now beyond).1
        ({ c with buffer := overlay r.stored temp }.handle now beyond).2
  | fwrite {pending n now} (hpc : c.pc = .write pending) (hn : n ≤ pending.length) :
      Trans origin c (.fwrite n now) (c.afterWrite pending n now) [.append (pending.take n)]
  | unlink {status} (hpc : c.pc = .unlink status) :
      Trans origin c .unlink (c.finish (.exited status)) [.unlink]
  | finack {t ok again now} (hpc : c.pc = .finackTop t) (ht : now - t < ackTimeout) :
      Trans origin c (.send ok again now) { c with pc := .finackRecv t }
      (if ok then [.send finAckPacket] else [])
  | finackTimeout {t ok again now} (hpc : c.pc = .finackTop t) (ht : ¬ now - t < ackTimeout) :
      Trans origin c (.send ok again now) (c.finish (.returned .ok)) []
  | finackRecv {t now temp beyond r} (hpc : c.pc = .finackRecv t) :
      Trans origin c (.poll now temp beyond r) (c.finackStep origin t temp r) []

/-- **Inversion**: every step is one of the transitions. -/
theorem trans_of_step {origin : Addr} {c d : Child} {i : ChildIn} {effs : List Effect}
    (h : c.step origin i = some (d, effs)) : Trans origin c i d effs := by
  unfold step at h
  split at h
  · next hpc =>
    obtain ⟨rfl, rfl⟩ := Prod.mk.inj (Option.some.inj h)
    exact .start hpc
  · next hpc =>
    obtain ⟨rfl, rfl⟩ := Prod.mk.inj (Option.some.inj h)
    exact .access hpc
  · next ok now hpc =>
    cases ok
    · obtain ⟨rfl, rfl⟩ := Prod.mk.inj (Option.some.inj h)
      exact .noCreate hpc
    · obtain ⟨rfl, rfl⟩ := Prod.mk.inj (Option.some.inj h)
      exact .create hpc
  · next cmd status ok again now hpc =>
    cases ok
    · obtain ⟨rfl, rfl⟩ := Prod.mk.inj (Option.some.inj h)
      exact .notDenied hpc
    · obtain ⟨rfl, rfl⟩ := Prod.mk.inj (Option.some.inj h)
      exact .denied hpc
  · next startTime ok again now hpc =>
    split_ifs at h with h1 h2
    · obtain ⟨rfl, rfl⟩ := Prod.mk.inj (Option.some.inj h)
      obtain rfl : ok = false := by simpa using h1
      exact .noAck hpc
    · obtain ⟨rfl, rfl⟩ := Prod.mk.inj (Option.some.inj h)
      obtain rfl : ok = true := by simpa using h1
      obtain ⟨rfl, ht⟩ : again = true ∧ now - startTime < 6 := by simpa using h2
      exact .ackAgain hpc ht
    · obtain ⟨rfl, rfl⟩ := Prod.mk.inj (Option.some.inj h)
      obtain rfl : ok = true := by simpa using h1
      exact .ack hpc (by simpa using h2)
  · next startTime now temp beyond r hpc =>
    rw [Option.some.injEq, pollStep_eq] at h
    split_ifs at h with ht hr
    · obtain ⟨rfl, rfl⟩ := Prod.mk.inj h
      exact .datagram hpc ht hr
    · obtain ⟨rfl, rfl⟩ := Prod.mk.inj h
      exact .idle hpc ht hr
    · obtain ⟨rfl, rfl⟩ := Prod.mk.inj h
      exact .timeout hpc ht
  · next pending n now hpc =>
    split_ifs at h with hn
    obtain ⟨rfl, rfl⟩ := Prod.mk.inj (Option.some.inj h)
    exact .fwrite hpc hn
  · next hpc =>
    obtain ⟨rfl, rfl⟩ := Prod.mk.inj (Option.some.inj h)
    exact .unlink hpc
  · next t ok again now hpc =>
    split_ifs at h with ht hok
    all_goals obtain ⟨rfl, rfl⟩ := Prod.mk.inj (Option.some.inj h)
    · subst hok
      exact .finack hpc ht
    · have hf : Trans origin c (.send ok again now) { c with pc := .finackRecv t }
          (if ok then [.send finAckPacket] else []) := .finack hpc ht
      rwa [if_neg hok] at hf
    · exact .finackTimeout hpc ht
  · next t now temp beyond r hpc =>
    obtain ⟨rfl, rfl⟩ := Prod.mk.inj (Option.some.inj h)
    exact .finackRecv hpc
  · cases h

/-- What a child sends: its denial, acknowledgements and `FINACK`. -/
theorem Trans.sent {origin : Addr} {c d : Child} {i : ChildIn} {effs : List Effect} {m : Bytes}
    (ht : Trans origin c i d effs) (hm : Effect.send m ∈ effs) :
    (∃ cmd status, c.pc = .deny cmd status ∧ m = createPacket cmd 0 0 []) ∨ (∃ q, m = ackPacket q) ∨
      (m = finAckPacket ∧ ∃ t, d.pc = .finackRecv t) := by
  cases ht with
  | denied h => exact Or.inl ⟨_, _, h, by simpa using hm⟩
  | ackAgain h _ => exact Or.inr (Or.inl ⟨1, by simpa using hm⟩)
  | ack h => exact Or.inr (Or.inl ⟨1, by simpa using hm⟩)
  | datagram h _ _ =>
    simp only [handle] at hm
    split_ifs at hm
    · exact Or.inr (Or.inl ⟨_, by simpa using hm⟩)
    · exact Or.inr (Or.inl ⟨_, by simpa using hm⟩)
    · simp at hm
    · simp at hm
    · simp at hm
  | @finack t ok again now h _ =>
    cases ok
    · simp at hm
    · exact Or.inr (Or.inr ⟨by simpa using hm, t, rfl⟩)
  | _ => simp at hm

end Child

/-- Program counters before the file is created. -/
def ChildPc.early : ChildPc → Prop
  | .start | .access | .fopen => True
  | .deny _ status => status ≠ .ok
  | _ => False

namespace Child

theorem parse_early (ok : Bool) (c : Child) :
    (c.parse ok).pc.early ∨ (c.parse ok).pc = .done (.returned .runtimeError) := by
  rw [parse]
  split_ifs
  · exact Or.inr rfl
  · exact Or.inl (by simp [ChildPc.early])
  · cases parseRequest (c.buffer.drop headerSize) with
    | none => exact Or.inl (by simp [ChildPc.early])
    | some req => exact Or.inl trivial

theorem check_early (found : Bool) (c : Child) :
    (c.check found).pc.early ∨ (c.check found).pc = .done (.returned .badRequest) := by
  rw [check]
  split_ifs
  · exact Or.inl (by simp [ChildPc.early])
  · cases scanSize c.sizeText with
    | none => exact Or.inr rfl
    | some v =>
      dsimp only
      split_ifs
      · exact Or.inr rfl
      · exact Or.inl trivial

theorem parse_frame (ok : Bool) (c : Child) :
    (c.parse ok).read = c.read ∧ (c.parse ok).expectedSequence = c.expectedSequence ∧
      (c.parse ok).accepted = c.accepted := by
  rw [parse]
  split_ifs
  · exact ⟨rfl, rfl, rfl⟩
  · exact ⟨rfl, rfl, rfl⟩
  · cases parseRequest (c.buffer.drop headerSize) <;> exact ⟨rfl, rfl, rfl⟩

theorem check_frame (found : Bool) (c : Child) :
    (c.check found).read = c.read ∧ (c.check found).expectedSequence = c.expectedSequence ∧
      (c.check found).accepted = c.accepted := by
  rw [check]
  split_ifs
  · exact ⟨rfl, rfl, rfl⟩
  · cases scanSize c.sizeText with
    | none => exact ⟨rfl, rfl, rfl⟩
    | some v =>
      dsimp only
      split_ifs <;> exact ⟨rfl, rfl, rfl⟩

theorem finackStep_frame (origin : Addr) (t : ℤ) (temp : Bytes) (r : Recv) (c : Child) :
    ((c.finackStep origin t temp r).pc = .done (.returned .ok) ∨ (c.finackStep origin t temp r).pc =
      .finackTop t) ∧
      (c.finackStep origin t temp r).read = c.read ∧
      (c.finackStep origin t temp r).expectedSequence = c.expectedSequence ∧
      (c.finackStep origin t temp r).accepted = c.accepted ∧
      (c.finackStep origin t temp r).filesize = c.filesize := by
  rw [finackStep]
  split_ifs
  · exact ⟨Or.inl rfl, rfl, rfl, rfl, rfl⟩
  · exact ⟨Or.inr rfl, rfl, rfl, rfl, rfl⟩

end Child

/-! ## The datagram in the zeroed buffer -/

namespace Child

theorem buffer_init {d : Bytes} (hd : d.length ≤ packetSize) :
    (Child.init d).buffer = d ++ List.replicate (packetSize - d.length) 0 := by
  unfold Child.init overlay
  simp [List.take_of_length_le hd]

theorem getD_init {d : Bytes} (hd : d.length ≤ packetSize) (i : ℕ) :
    (Child.init d).buffer.getD i 0 = d.getD i 0 := by
  rw [buffer_init hd]
  by_cases hi : i < d.length
  · rw [List.getD_append _ _ _ _ hi]
  · rw [List.getD_append_right _ _ _ _ (not_lt.mp hi), List.getD_eq_default d _ (not_lt.mp hi),
      List.getD_eq_getElem?_getD,
      List.getElem?_getD_replicate_default_eq]

theorem command_init {d : Bytes} (hd : d.length ≤ packetSize) :
    command (Child.init d).buffer = command d :=
  getD_init hd 0

theorem getSeqNum_init {d : Bytes} (hd : d.length ≤ packetSize) :
    getSeqNum (Child.init d).buffer = getSeqNum d := by
  unfold getSeqNum
  rw [getD_init hd, getD_init hd]

/-- The payload as a C string is the one of the datagram. -/
theorem cstr_init {d : Bytes} (hd : d.length ≤ packetSize) :
    cstr ((Child.init d).buffer.drop headerSize) = cstr (d.drop headerSize) := by
  rw [buffer_init hd, List.drop_append, List.drop_replicate, cstr_append_replicate]

/-- The text of a client's request as the child finds it. -/
theorem cstr_requestPacket {name : Bytes} {n : ℕ} (hnul : 0 ∉ name)
    (hfits : (requestText name n).length < payloadSize) :
    cstr ((Child.init (requestPacket name n)).buffer.drop headerSize) = requestText name n := by
  rw [cstr_init (isPacket_requestPacket hfits).size, drop_requestPacket hfits,
    cstr_of_notMem (zero_notMem_requestText hnul n)]

end Child

/-! ## One datagram as one step -/

/-- The clock of a step. -/
def ChildIn.clock : ChildIn → ℤ
  | .fopen _ now | .send _ _ now | .poll now _ _ _ | .fwrite _ now => now
  | _ => 0

namespace Child

/-- Local calls that follow a step are made at once: an `fwrite`, which writes everything, and an
`unlink`. -/
def settle (origin : Addr) (now : ℤ) : ℕ → Child × List Effect → Option (Child × List Effect)
  | 0, p => some p
  | k + 1, p =>
    match p.1.pc with
    | .write pending =>
      (p.1.step origin (.fwrite pending.length now)).bind fun q =>
        settle origin now k (q.1, p.2 ++ q.2)
    | .unlink _ => (p.1.step origin .unlink).bind fun q => settle origin now k (q.1, p.2 ++ q.2)
    | _ => some p

/-- A step together with the local calls that follow it. -/
def atomic (origin : Addr) (c : Child) (i : ChildIn) : Option (Child × List Effect) :=
  (c.step origin i).bind (settle origin i.clock 2)

/-- The program counter is not at a local call. -/
def Settled (c : Child) : Prop := (∀ bs, c.pc ≠ .write bs) ∧ ∀ st, c.pc ≠ .unlink st

/-- The child after it accepted the packet in its buffer. -/
def accept (c : Child) : Child :=
  { c with
    expectedSequence := c.expectedSequence + 1
    read := c.read + (getLen c.buffer).toNat
    accepted := c.accepted ++ [packetOf c.buffer] }

/-- What a step and the local calls after it can do. -/
inductive Atomic (origin : Addr) (c : Child) : ChildIn → Child → List Effect → Prop
  | settled {i d effs} (h : Trans origin c i d effs) (hd : d.Settled) : Atomic origin c i d effs
  | noAck {startTime again now} (hpc : c.pc = .ackRequest startTime) :
      Atomic origin c (.send false again now) (c.finish (.exited .runtimeError)) [.unlink]
  | timeout {startTime now temp beyond r} (hpc : c.pc = .poll startTime)
      (ht : ¬ now - startTime < 6) :
      Atomic origin c (.poll now temp beyond r) (c.finish (.exited .timeout)) [.unlink]
  | incomplete {startTime now temp beyond r} {d : Child} (hpc : c.pc = .poll startTime)
      (ht : now - startTime < 6) (hr : 0 < r.ret)
      (hd : d = { c with buffer := overlay r.stored temp }) (hcmd : command d.buffer = cmdFin)
      (hn : d.read ≠ d.filesize) :
      Atomic origin c (.poll now temp beyond r) (d.finish (.exited .badRequest)) [.unlink]
  | accept {startTime now temp beyond r} {d : Child} (hpc : c.pc = .poll startTime)
      (ht : now - startTime < 6) (hr : 0 < r.ret)
      (hd : d = { c with buffer := overlay r.stored temp }) (hcmd : command d.buffer = cmdData)
      (hseq : getSeqNum d.buffer = d.expectedSequence) (hfit : d.accept.read ≤ d.filesize) :
      Atomic origin c (.poll now temp beyond r) { d.accept with pc := .poll now }
        [.send (ackPacket d.accept.expectedSequence),
          .append (peek d.buffer beyond headerSize (getLen d.buffer).toNat)]
  | excess {startTime now temp beyond r} {d : Child} (hpc : c.pc = .poll startTime)
      (ht : now - startTime < 6) (hr : 0 < r.ret)
      (hd : d = { c with buffer := overlay r.stored temp }) (hcmd : command d.buffer = cmdData)
      (hseq : getSeqNum d.buffer = d.expectedSequence) (hover : d.filesize < d.accept.read) :
      Atomic origin c (.poll now temp beyond r) (d.accept.finish (.exited .badRequest))
        [.send (ackPacket d.accept.expectedSequence),
          .append (peek d.buffer beyond headerSize (getLen d.buffer).toNat), .unlink]

theorem settle_settled {origin : Addr} {now : ℤ} {k : ℕ} {p : Child × List Effect}
    (h : p.1.Settled) : settle origin now k p = some p := by
  cases k with
  | zero => rfl
  | succ k =>
    obtain ⟨hw, hu⟩ := h
    rw [settle]
    split
    · next pending hpc => exact absurd hpc (hw pending)
    · next st hpc => exact absurd hpc (hu st)
    · rfl

/-- A pending `unlink` is carried out and the child has exited. -/
theorem settle_unlink {origin : Addr} {now : ℤ} {k : ℕ} {c : Child} {effs : List Effect}
    {st : Status} (h : c.pc = .unlink st) :
    settle origin now (k + 1) (c, effs) = some (c.finish (.exited st), effs ++ [.unlink]) := by
  have hs : c.step origin .unlink = some (c.finish (.exited st), [.unlink]) := by
      simp only [step, h]
  rw [settle]
  simp only [h, hs, Option.bind_some]
  exact settle_settled ⟨fun bs => by simp [finish], fun st' => by simp [finish]⟩

/-- A pending `fwrite` writes everything. -/
theorem settle_write {origin : Addr} {now : ℤ} {k : ℕ} {c : Child} {effs : List Effect}
    {pending : Bytes} (h : c.pc = .write pending) :
    settle origin now (k + 1) (c, effs) =
      settle origin now k (c.afterWrite pending pending.length now, effs ++ [.append pending]) := by
  have hs : c.step origin (.fwrite pending.length now) =
      some (c.afterWrite pending pending.length now, [.append pending]) := by
    simp only [step, h, le_refl, if_true, List.take_length]
  rw [settle]
  simp only [h, hs, Option.bind_some]

theorem Settled.of_early {c : Child} (h : c.pc.early) : c.Settled := by
  constructor
  · intro bs hpc
    rw [hpc] at h
    exact h
  · intro st hpc
    rw [hpc] at h
    exact h

theorem Settled.of_done {c : Child} {e : Ending} (h : c.pc = .done e) : c.Settled := by
  constructor
  · intro bs hpc
    simp [hpc] at h
  · intro st hpc
    simp [hpc] at h

theorem parse_settled (ok : Bool) (c : Child) : (c.parse ok).Settled := by
  rcases c.parse_early ok with hp | hp
  · exact Settled.of_early hp
  · exact Settled.of_done hp

theorem check_settled (found : Bool) (c : Child) : (c.check found).Settled := by
  rcases c.check_early found with hp | hp
  · exact Settled.of_early hp
  · exact Settled.of_done hp

theorem finackStep_settled (origin : Addr) (t : ℤ) (temp : Bytes) (r : Recv) (c : Child) :
    (c.finackStep origin t temp r).Settled := by
  rcases (c.finackStep_frame origin t temp r).1 with hpc | hpc
  · exact Settled.of_done hpc
  · exact ⟨fun bs => by simp [hpc], fun st => by simp [hpc]⟩

/-- **Inversion** for a step with the local calls after it. -/
theorem atomic_inv {origin : Addr} {c d : Child} {i : ChildIn} {effs : List Effect} (hc : c.Settled)
    (h : c.atomic origin i = some (d, effs)) : Atomic origin c i d effs := by
  obtain ⟨⟨d₁, effs₁⟩, hstep, hset⟩ := Option.bind_eq_some_iff.mp h
  have ht := trans_of_step hstep
  by_cases hd : d₁.Settled
  · rw [settle_settled hd, Option.some.injEq, Prod.mk.injEq] at hset
    obtain ⟨rfl, rfl⟩ := hset
    exact .settled ht hd
  · cases ht with
    | noAck hpc =>
      rw [settle_unlink rfl, Option.some.injEq, Prod.mk.injEq] at hset
      obtain ⟨rfl, rfl⟩ := hset
      exact .noAck hpc
    | timeout hpc htime =>
      rw [settle_unlink rfl, Option.some.injEq, Prod.mk.injEq] at hset
      obtain ⟨rfl, rfl⟩ := hset
      exact .timeout hpc htime
    | @datagram startTime now temp beyond r hpc htime hr =>
      simp only [handle] at hset hd
      split_ifs at hset hd with hcmd hseq hfin hread
      · exact absurd ⟨fun bs => by simp, fun st => by simp⟩ hd
      · -- an accepted packet
        rw [settle_write rfl, afterWrite, if_neg (by simp)] at hset
        split_ifs at hset with hover
        · rw [settle_unlink rfl, Option.some.injEq, Prod.mk.injEq] at hset
          obtain ⟨rfl, rfl⟩ := hset
          exact .excess hpc htime hr rfl hcmd (not_not.mp hseq) hover
        · rw [settle_settled ⟨fun bs => by simp, fun st => by simp⟩, Option.some.injEq,
            Prod.mk.injEq] at hset
          obtain ⟨rfl, rfl⟩ := hset
          exact .accept hpc htime hr rfl hcmd (not_not.mp hseq) (not_lt.mp hover)
      · rw [settle_unlink rfl, Option.some.injEq, Prod.mk.injEq] at hset
        obtain ⟨rfl, rfl⟩ := hset
        exact .incomplete (d := { c with buffer := overlay r.stored temp }) hpc htime hr
          rfl hfin hread
      · exact absurd ⟨fun bs => by simp, fun st => by simp⟩ hd
      · exact absurd ⟨fun bs => by simp, fun st => by simp⟩ hd
    | start hpc => exact absurd (c.parse_settled _) hd
    | access hpc => exact absurd (c.check_settled _) hd
    | fwrite hpc hn => exact absurd hpc (hc.1 _)
    | finackRecv hpc => exact absurd (finackStep_settled _ _ _ _ c) hd
    | ackAgain hpc _ => exact absurd ⟨fun bs => by simp [hpc], fun st => by simp [hpc]⟩ hd
    | idle hpc _ _ => exact absurd ⟨fun bs => by simp [hpc], fun st => by simp [hpc]⟩ hd
    | _ => exact absurd ⟨fun bs => by simp [finish], fun st => by simp [finish]⟩ hd

/-- A `DATA` packet with the expected number: it is accepted, and too much data ends the child. -/
theorem atomic_data {origin src : Addr} {c : Child} {startTime now : ℤ} {temp d : Bytes}
    {beyond : ℕ → Byte} (hpc : c.pc = .poll startTime) (ht : now - startTime < 6) (hd : IsPacket d)
    (hcmd : command d = cmdData) (hseq : getSeqNum d = c.expectedSequence) :
    c.atomic origin (.poll now temp beyond (.got src d)) =
      let b : Child := { c with buffer := overlay d temp }
      let effs := [.send (ackPacket (c.expectedSequence + 1)), .append (d.drop headerSize)]
      if c.filesize < c.read + (getLen d).toNat then
        some (b.accept.finish (.exited .badRequest), effs ++ [.unlink])
      else some ({ b.accept with pc := .poll now }, effs) := by
  have hr : 0 < (Recv.got src d).ret := by
    have := hd.length_pos
    simp only [Recv.ret, hd.take_packetSize]
    omega
  have hstep : c.step origin (.poll now temp beyond (.got src d)) =
      some (Child.handle now beyond { c with buffer := overlay d temp }) := by
    have hpoll : c.step origin (.poll now temp beyond (.got src d)) =
        some (c.pollStep origin startTime now temp beyond (.got src d)) := by simp only [step, hpc]
    rw [hpoll, pollStep_eq, if_pos ht, if_pos hr, Recv.stored, hd.take_packetSize]
  rw [atomic, hstep, Option.bind_some]
  unfold handle
  dsimp only
  rw [if_pos (by rw [hd.command_overlay]; exact hcmd),
    if_neg (by rw [hd.getSeqNum_overlay]; exact not_not.mpr hseq),
    hd.peek_overlay, settle_write rfl, afterWrite, if_neg (not_not.mpr rfl)]
  dsimp only
  rw [hd.getLen_overlay]
  split_ifs with hover
  · rw [settle_unlink rfl]
    simp only [accept, hd.getLen_overlay]
    rfl
  · rw [settle_settled ⟨fun bs => by simp, fun st => by simp⟩]
    simp only [accept, hd.getLen_overlay]
    rfl

/-- A packet that leaves no local call pending. -/
theorem atomic_packet {origin src : Addr} {c : Child} {startTime now : ℤ} {temp d : Bytes}
    {beyond : ℕ → Byte} (hpc : c.pc = .poll startTime) (ht : now - startTime < 6) (hd : IsPacket d)
    (hset : (Child.handle now beyond { c with buffer := overlay d temp }).1.Settled) :
    c.atomic origin (.poll now temp beyond (.got src d)) =
      some (Child.handle now beyond { c with buffer := overlay d temp }) := by
  have hr : 0 < (Recv.got src d).ret := by
    have := hd.length_pos
    simp only [Recv.ret, hd.take_packetSize]
    omega
  have hpoll : c.step origin (.poll now temp beyond (.got src d)) =
      some (c.pollStep origin startTime now temp beyond (.got src d)) := by simp only [step, hpc]
  rw [atomic, hpoll, pollStep_eq, if_pos ht, if_pos hr, Recv.stored, hd.take_packetSize,
    Option.bind_some]
  exact settle_settled hset

end Child

/-! ## One child and its file -/

/-- What an effect does to the file of the child's name in the directory, once the stream has passed
on what `fwrite` has taken. -/
def Effect.onDisk (disk : Option Bytes) : Effect → Option Bytes
  | .send _ => disk
  | .create => some []
  | .append bs => disk.map (· ++ bs)
  | .unlink => none

def Effect.sent : Effect → Option Bytes
  | .send d => some d
  | _ => none

def Effect.appended : Effect → Bytes
  | .append bs => bs
  | _ => []

/-- A child, the file of its name in the directory (`none`: no such file) with all that `fwrite` has
taken, and whether its `fopen` has succeeded. -/
structure Solo where
  child : Child
  disk : Option Bytes
  opened : Bool

namespace Solo

/-- One step of the child, with its effects on the file. -/
def next (origin : Addr) (s : Solo) (i : ChildIn) : Option Solo :=
  (s.child.step origin i).map fun p =>
    ⟨p.1, p.2.foldl Effect.onDisk s.disk, s.opened || decide (Effect.create ∈ p.2)⟩

end Solo

end FortyTwoHundred.Ftp
