import FortyTwoHundred.Srtp.Header

/-!
# Receive — `handle_data_pkt` and the loop of `recv_srtp_data` (`srtp_impl.cpp`)

`recvSrtpData` is a turn of the loop for a datagram that is handled with a given connection: the
datagram is stored in the buffer of `server_proxy` over what was there, the buffer is read as a
packet, and a data packet is written to the fifo of the connection or put in its inbox.  Which
connection that is the code looks up in `hash2fd` and `fd2conn`, or makes; that part of the turn is
in `Sockets`.  `handle_cmd_pkt` does nothing, and so does a turn in which `recvfrom` fails.

A write to the fifo is recorded with the number of the packet it is made for.
-/

namespace FortyTwoHundred.Srtp

/-- `Mesg_t`. -/
structure Mesg where
  mesg : Bytes
  len : ℕ
  seq : UInt32

/-- The part of `Conn_t` that `handle_data_pkt` uses. -/
structure Conn where
  sequence : UInt32
  inbox : List Mesg

/-- The packet's number, and the bytes given to `write`. -/
structure Write where
  seq : UInt16
  bytes : Bytes
  deriving DecidableEq

/-- Before the first message with a greater number, or at the end. -/
def insertMesg (m : Mesg) : List Mesg → List Mesg
  | [] => [m]
  | x :: xs => if m.seq < x.seq then m :: x :: xs else x :: insertMesg m xs

/-- The bytes `handle_data_pkt` takes as payload: `buffer` points past the header already when the
size of the header is added to it. -/
def takenPayload (bo : ByteOrder) (buf : Bytes) (beyond : ℕ → Byte) : Bytes :=
  peek buf beyond (headerSize + headerSize) (header bo buf).len.toNat

/-- The connection afterwards, and the write to its fifo if there is one. -/
def handleDataPkt (bo : ByteOrder) (buf : Bytes) (beyond : ℕ → Byte) (conn : Conn) :
    Conn × Option Write :=
  let head := header bo buf
  if conn.sequence = head.seq.toUInt32 then
    -- messages of the inbox that are now in order stay there
    ({ conn with sequence := conn.sequence + 1 }, some ⟨head.seq, takenPayload bo buf beyond⟩)
  else
    ({ conn with
        inbox := insertMesg ⟨takenPayload bo buf beyond, head.len.toNat, head.seq.toUInt32⟩
          conn.inbox }, none)

/-- Size of the buffer of `server_proxy`. -/
def bufferSize : ℕ := 2048

/-- A datagram, and the memory after the buffer when it is handled. -/
structure Arrival where
  datagram : Bytes
  beyond : ℕ → Byte

/-- The receiving side with one connection, with which every datagram is handled: the buffer, the
connection, what has been written to its fifo, and the numbers given to `send_ack_to`. -/
structure Receiver where
  buffer : Bytes
  conn : Conn
  writes : List Write
  acked : List UInt16

namespace Receiver

/-- The buffer after `recvfrom`. -/
def stored (r : Receiver) (d : Bytes) : Bytes := overlay (d.take bufferSize) r.buffer

/-- A turn of the loop. -/
def recvSrtpData (bo : ByteOrder) (r : Receiver) (a : Arrival) : Receiver :=
  let buf := r.stored a.datagram
  if 0 < (header bo buf).len then
    let p := handleDataPkt bo buf a.beyond r.conn
    ⟨buf, p.1, r.writes ++ p.2.toList, r.acked ++ [(header bo buf).seq]⟩
  else { r with buffer := buf }

/-- The turns for the datagrams in their order. -/
def receive (bo : ByteOrder) (r : Receiver) (as : List Arrival) :
    Receiver := as.foldl (recvSrtpData bo) r

/-- The bytes written to the fifo. -/
def fifo (r : Receiver) : Bytes := r.writes.flatMap Write.bytes

@[simp] theorem receive_nil (bo : ByteOrder) (r : Receiver) : r.receive bo [] = r := rfl

@[simp] theorem receive_cons (bo : ByteOrder) (r : Receiver) (a : Arrival) (as : List Arrival) :
    r.receive bo (a :: as) = (r.recvSrtpData bo a).receive bo as := rfl

theorem receive_append (bo : ByteOrder) (r : Receiver) (as cs : List Arrival) :
    r.receive bo (as ++ cs) = (r.receive bo as).receive bo cs := List.foldl_append

section Turn

variable {bo : ByteOrder} {r : Receiver} {a : Arrival}
  (hlen : 0 < (header bo (r.stored a.datagram)).len)
include hlen

/-- A data packet with the expected number. -/
theorem recvSrtpData_next
    (hseq : r.conn.sequence = (header bo (r.stored a.datagram)).seq.toUInt32) :
    r.recvSrtpData bo a =
      ⟨r.stored a.datagram, { r.conn with sequence := r.conn.sequence + 1 },
        r.writes ++ [⟨(header bo (r.stored a.datagram)).seq,
          takenPayload bo (r.stored a.datagram) a.beyond⟩],
        r.acked ++ [(header bo (r.stored a.datagram)).seq]⟩ := by
  rw [recvSrtpData, handleDataPkt]
  dsimp only
  rw [if_pos hlen, if_pos hseq]
  rfl

/-- A data packet with any other number goes to the inbox. -/
theorem recvSrtpData_other
    (hseq : r.conn.sequence ≠ (header bo (r.stored a.datagram)).seq.toUInt32) :
    ∃ inbox, r.recvSrtpData bo a = ⟨r.stored a.datagram, { r.conn with inbox := inbox }, r.writes,
      r.acked ++ [(header bo (r.stored a.datagram)).seq]⟩ := by
  rw [recvSrtpData, handleDataPkt]
  dsimp only
  rw [if_pos hlen, if_neg hseq, Option.toList_none, List.append_nil]
  exact ⟨_, rfl⟩

end Turn

end Receiver

end FortyTwoHundred.Srtp
