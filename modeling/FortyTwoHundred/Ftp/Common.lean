import Mathlib.Data.List.GetD
import Mathlib.Tactic.Ring
import FortyTwoHundred.Memory
import FortyTwoHundred.Lib.SeqNum

/-!
# Common — packets, sending and receiving (`srtp_common.h`)

Packets are byte lists.  A packet is a command byte, the sequence number and the payload length in
network byte order, and the payload; `createPacket` builds one, `getSeqNum` and `getLen` read the
two numbers of a buffer.

`readOnlyFrom` is `read_only_from` with its freshly allocated `temp` and the outcome of `recvfrom`
as inputs.  Its origin test starts with `1 ||`, so the whole of `temp` replaces the caller's buffer
in every case (`readOnlyFrom_eq`).
-/

namespace FortyTwoHundred.Ftp

/-! ## Constants -/

def cmdAck : Byte := 1
def cmdBadReq : Byte := 2
def cmdExists : Byte := 3
def cmdData : Byte := 4
def cmdWrq : Byte := 5
def cmdFin : Byte := 6
def cmdFinAck : Byte := 7

def packetSize : ℕ := 2048
def headerSize : ℕ := 5
def payloadSize : ℕ := packetSize - headerSize
def windowSize : ℕ := 50

/-- Seconds. -/
def ackTimeout : ℤ := 2

/-- Exit statuses of the two programs (`RUNTIME_ERROR`, …; `ok` is `0`). -/
inductive Status
  | ok | runtimeError | badRequest | fileExists | cannotCreate | timeout
  deriving DecidableEq, Repr

/-- How `copy_file` ended: by `return` or by `exit`. -/
inductive Ending
  | returned (status : Status)
  | exited (status : Status)
  deriving DecidableEq, Repr

/-! ## Packets -/

/-- The two bytes of a 16-bit number in network byte order. -/
def netBytes (v : UInt16) : Bytes := [UInt8.ofNat (v.toNat / 256), UInt8.ofNat (v.toNat % 256)]

/-- The 16-bit number of two bytes in network byte order. -/
def ofNet (hi lo : Byte) : UInt16 := UInt16.ofNat (hi.toNat * 256 + lo.toNat)

def getSeqNum (buffer : Bytes) : UInt16 := ofNet (buffer.getD 1 0) (buffer.getD 2 0)

def getLen (buffer : Bytes) : UInt16 := ofNet (buffer.getD 3 0) (buffer.getD 4 0)

/-- `buffer[0]`. -/
def command (buffer : Bytes) : Byte := buffer.getD 0 0

/-- `create_packet`; a `NULL` payload is the empty one. -/
def createPacket (cmd : Byte) (sequence payloadSize : UInt16) (payload : Bytes) : Bytes :=
  cmd :: (netBytes sequence ++ netBytes payloadSize ++ payload.take payloadSize.toNat)

theorem ofNet_netBytes (v : UInt16) :
    ofNet ((netBytes v).getD 0 0) ((netBytes v).getD 1 0) = v := by
  have hv := v.toNat_lt
  rw [← UInt16.toNat_inj]
  simp only [ofNet, netBytes, List.getD_cons_zero, List.getD_cons_succ, UInt16.toNat_ofNat',
    UInt8.toNat_ofNat']
  omega

section CreatePacket

variable (cmd : Byte) (s n : UInt16) (payload : Bytes)

@[simp] theorem command_createPacket : command (createPacket cmd s n payload) = cmd := rfl

@[simp] theorem getSeqNum_createPacket : getSeqNum (createPacket cmd s n payload) = s :=
  ofNet_netBytes s

@[simp] theorem getLen_createPacket : getLen (createPacket cmd s n payload) = n :=
  ofNet_netBytes n

theorem length_createPacket (h : n.toNat ≤ payload.length) :
    (createPacket cmd s n payload).length = headerSize + n.toNat := by
  simp [createPacket, netBytes, headerSize, h]; omega

/-- The payload of a packet is what follows the header. -/
@[simp] theorem drop_createPacket :
    (createPacket cmd s n payload).drop headerSize = payload.take n.toNat := rfl

end CreatePacket

/-! ## Sending -/

/-- The datagram `send_packet` hands to `sendto`. -/
def sendPacket (packet : Bytes) : Bytes := packet.take (headerSize + (getLen packet).toNat)

theorem sendPacket_createPacket {cmd : Byte} {s n : UInt16} {payload : Bytes}
    (h : n.toNat ≤ payload.length) :
    sendPacket (createPacket cmd s n payload) = createPacket cmd s n payload := by
  rw [sendPacket, getLen_createPacket, ← length_createPacket cmd s n payload h, List.take_length]

/-- `send_all`: the datagrams put on the wire, and whether a `sendto` failed (the packets after it
are not sent). -/
def sendAll (sendto : Bytes → Bool) : List Bytes → List Bytes × Bool
  | [] => ([], false)
  | p :: ps =>
    if sendto p then (sendPacket p :: (sendAll sendto ps).1, (sendAll sendto ps).2) else ([], true)

theorem sendAll_mem {sendto : Bytes → Bool} {ps : List Bytes} {d : Bytes}
    (h : d ∈ (sendAll sendto ps).1) : ∃ p ∈ ps, d = sendPacket p := by
  induction ps with
  | nil => simp [sendAll] at h
  | cons p ps ih =>
    rw [sendAll] at h
    split_ifs at h
    · rcases List.mem_cons.mp h with rfl | h
      · exact ⟨p, by simp, rfl⟩
      · obtain ⟨q, hq, e⟩ := ih h
        exact ⟨q, List.mem_cons_of_mem _ hq, e⟩
    · simp at h

theorem sendAll_ok {sendto : Bytes → Bool} {ps : List Bytes} (h : ∀ p ∈ ps, sendto p = true) :
    sendAll sendto ps = (ps.map sendPacket, false) := by
  induction ps with
  | nil => rfl
  | cons p ps ih =>
    rw [sendAll, if_pos (h p (by simp)), ih fun q hq => h q (by simp [hq])]
    rfl

/-! ## Receiving -/

/-- A source address; the code compares `sa_data`. -/
structure Addr where
  saData : Bytes
  deriving DecidableEq

inductive Errno
  | again
  | other
  deriving DecidableEq

/-- Outcome of a `recvfrom` that does not block: a datagram and its source, or failure. -/
inductive Recv
  | got (src : Addr) (datagram : Bytes)
  | fail (errno : Errno)

/-- The bytes a `recvfrom` of `packetSize` bytes stores. -/
def Recv.stored : Recv → Bytes
  | .got _ d => d.take packetSize
  | .fail _ => []

/-- The value `recvfrom` returns. -/
def Recv.ret : Recv → ℤ
  | .got _ d => (d.take packetSize).length
  | .fail _ => -1

/-- `EAGAIN` or `EWOULDBLOCK`: nothing to receive. -/
def Recv.again : Recv → Bool
  | .fail .again => true
  | _ => false

/-- `from` is set by a successful `recvfrom` only. -/
def Recv.src : Recv → Option Addr
  | .got a _ => some a
  | .fail _ => none

/-- Result of `read_only_from`: its value, whether `errno` says `EAGAIN`, and the caller's
buffer. -/
structure ReadResult where
  ret : ℤ
  again : Bool
  buffer : Bytes

/-- `read_only_from`, with the contents of the fresh block `temp`. -/
def readOnlyFrom (wanted : Addr) (buffer temp : Bytes) (r : Recv) : ReadResult :=
  -- the test as the source has it: the first operand of `||` is the constant 1
  if true || (decide (0 < r.ret) && r.src == some wanted) then
    ⟨r.ret, r.again, overlay r.stored temp⟩
  else
    ⟨-1, true, buffer⟩

/-- The origin test never rejects: every outcome of `recvfrom` reaches the caller, over whatever
`temp` held. -/
theorem readOnlyFrom_eq (wanted : Addr) (buffer temp : Bytes) (r : Recv) :
    readOnlyFrom wanted buffer temp r = ⟨r.ret, r.again, overlay r.stored temp⟩ := rfl

/-! ## A packet in a receive buffer -/

/-- The packet in a buffer. -/
def packetOf (buffer : Bytes) : Bytes := buffer.take (headerSize + (getLen buffer).toNat)

/-- A datagram that is one whole packet and fits the receive buffer. -/
structure IsPacket (d : Bytes) : Prop where
  length : d.length = headerSize + (getLen d).toNat
  size : d.length ≤ packetSize

theorem IsPacket.createPacket {cmd : Byte} {s n : UInt16} {payload : Bytes}
    (h : n.toNat ≤ payload.length) (hn : n.toNat ≤ payloadSize) :
    IsPacket (createPacket cmd s n payload) := by
  have hl := length_createPacket cmd s n payload h
  have hp : payloadSize = 2043 := rfl
  have hh : headerSize = 5 := rfl
  have hs : packetSize = 2048 := rfl
  exact ⟨by rw [getLen_createPacket]; exact hl, by omega⟩

section Overlay

variable {d : Bytes} (h : IsPacket d) (temp : Bytes)
include h

theorem IsPacket.take_packetSize : d.take packetSize = d := List.take_of_length_le h.size

theorem IsPacket.length_pos : 5 ≤ d.length := by
  have := h.length
  have hh : headerSize = 5 := rfl
  omega

theorem IsPacket.command_overlay : command (overlay d temp) = command d :=
  getD_overlay (by have := h.length_pos; omega)

theorem IsPacket.getSeqNum_overlay : getSeqNum (overlay d temp) = getSeqNum d := by
  have := h.length_pos
  rw [getSeqNum, getD_overlay (by omega), getD_overlay (by omega)]
  rfl

theorem IsPacket.getLen_overlay : getLen (overlay d temp) = getLen d := by
  have := h.length_pos
  rw [getLen, getD_overlay (by omega), getD_overlay (by omega)]
  rfl

theorem IsPacket.packetOf_overlay : packetOf (overlay d temp) = d := by
  rw [packetOf, h.getLen_overlay, ← h.length, overlay, List.take_left]

theorem IsPacket.peek_overlay (beyond : ℕ → Byte) :
    peek (overlay d temp) beyond headerSize (getLen (overlay d temp)).toNat =
      d.drop headerSize := by
  have hl := h.length
  have hlen : d.length ≤ (overlay d temp).length := by simp [overlay]
  have hdrop : (getLen d).toNat = (d.drop headerSize).length := by rw [List.length_drop]; omega
  rw [h.getLen_overlay, peek_of_le (by omega), overlay, List.drop_append_of_le_length (by omega),
    hdrop,
    List.take_left]

end Overlay

end FortyTwoHundred.Ftp
