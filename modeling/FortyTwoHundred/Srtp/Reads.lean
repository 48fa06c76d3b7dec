import FortyTwoHundred.Lib.Traced
import FortyTwoHundred.Srtp.Receive

/-!
# Reads — the bytes that `recv_srtp_data` reads for a datagram

A turn of the loop of `recv_srtp_data` as a computation on the memory from the start of the buffer
on, with every byte it reads.  The number of bytes received is not looked at: the header is read
from a datagram of any length, and the payload from behind a second header, as long as the length
field says.  `reads_inside_iff` says for which datagrams all this stays inside.
-/

namespace FortyTwoHundred.Srtp

open Traced (load loads)

/-- The memory from the start of a buffer on. -/
def memory (buf : Bytes) (beyond : ℕ → Byte) (i : ℕ) :
    Byte := if i < buf.length then buf.getD i 0 else beyond (i - buf.length)

/-- A field of two bytes. -/
def loadWord (bo : ByteOrder) (i : ℕ) : Traced ℕ Byte UInt16 := do
  let a ← load i
  let b ← load (i + 1)
  return bo.word a b

/-- The bytes that are taken as payload: `buffer` points past the header already when the size of
the header is added to it. -/
def loadPayload (bo : ByteOrder) : Traced ℕ Byte (UInt16 × Bytes) := do
  let len ← loadWord bo 0
  let payload ← loads ((List.range len.toNat).map (headerSize + headerSize + ·))
  return (len, payload)

/-- `handle_data_pkt`: the connection afterwards, and the write to its fifo if there is one. -/
def handleDataPktReads (bo : ByteOrder) (conn : Conn) : Traced ℕ Byte (Conn × Option Write) := do
  let seq ← loadWord bo 2
  if conn.sequence = seq.toUInt32 then
    let p ← loadPayload bo
    return ({ conn with sequence := conn.sequence + 1 }, some ⟨seq, p.2⟩)
  else
    let p ← loadPayload bo
    return ({ conn with inbox := insertMesg ⟨p.2, p.1.toNat, seq.toUInt32⟩ conn.inbox }, none)

/-- `handle_cmd_pkt`, which does nothing. -/
def handleCmdPktReads (bo : ByteOrder) : Traced ℕ Byte Unit := do
  let cmd ← load 7
  if cmd &&& cmdSyn ≠ 0 then
    let _ ← loadWord bo 2
  let _ ← load 7

/-- A turn of the loop on the buffer: the connection afterwards, the write, and the number
acknowledged. -/
def turnReads (bo : ByteOrder) (conn : Conn) :
    Traced ℕ Byte (Conn × Option Write × Option UInt16) := do
  let len ← loadWord bo 0
  if 0 < len then
    let p ← handleDataPktReads bo conn
    let seq ← loadWord bo 2
    return (p.1, p.2, some seq)
  else
    handleCmdPktReads bo
    return (conn, none, none)

/-! ## The values are those of the model -/

section Values

variable {bo : ByteOrder} {buf : Bytes} {beyond : ℕ → Byte} (hbuf : headerSize ≤ buf.length)
include hbuf

theorem memory_eq {i : ℕ} (hi : i < headerSize) : memory buf beyond i = buf.getD i 0 :=
    if_pos (Nat.lt_of_lt_of_le hi hbuf)

theorem value_len : (loadWord bo 0).value (memory buf beyond) = (header bo buf).len := by
  show bo.word (memory buf beyond 0) (memory buf beyond 1) = _
  rw [memory_eq hbuf (by decide), memory_eq hbuf (by decide)]
  rfl

theorem value_seq : (loadWord bo 2).value (memory buf beyond) = (header bo buf).seq := by
  show bo.word (memory buf beyond 2) (memory buf beyond 3) = _
  rw [memory_eq hbuf (by decide), memory_eq hbuf (by decide)]
  rfl

omit hbuf in
theorem map_memory (off n : ℕ) : (List.range n).map (fun i => memory buf beyond (off + i)) =
    peek buf beyond off n := by
  refine List.ext_getElem (by simp) fun i h1 h2 => ?_
  rw [List.length_map, List.length_range] at h1
  rw [List.getElem_map, List.getElem_range, memory]
  by_cases hi : off + i < buf.length
  · rw [if_pos hi]
    simp only [peek]
    rw [List.getElem_append_left (by simp; omega), List.getElem_take, List.getElem_drop,
      List.getD_eq_getElem _ _ hi]
  · rw [if_neg hi]
    simp only [peek]
    rw [List.getElem_append_right (by simp; omega), List.getElem_map, List.getElem_range]
    congr 1
    simp only [List.length_take, List.length_drop]
    omega

theorem value_loadPayload :
    (loadPayload bo).value (memory buf beyond) =
      ((header bo buf).len, takenPayload bo buf beyond) := by
  rw [loadPayload, Traced.value_bind, value_len hbuf, Traced.value_bind, Traced.value_loads,
    List.map_map, takenPayload,
    ← map_memory]
  rfl

/-- `handle_data_pkt` on the memory is `handleDataPkt`. -/
theorem value_handleDataPkt (conn : Conn) :
    (handleDataPktReads bo conn).value (memory buf beyond) = handleDataPkt bo buf beyond conn := by
  rw [handleDataPktReads, handleDataPkt, Traced.value_bind, value_seq hbuf]
  split_ifs
  · rw [Traced.value_bind, value_loadPayload hbuf]
    rfl
  · rw [Traced.value_bind, value_loadPayload hbuf]
    rfl

/-- **A turn of the loop** on the memory does what the model says. -/
theorem value_turn (conn : Conn) :
    (turnReads bo conn).value (memory buf beyond) =
      if 0 < (header bo buf).len then
        ((handleDataPkt bo buf beyond conn).1, (handleDataPkt bo buf beyond conn).2,
          some (header bo buf).seq)
      else (conn, none, none) := by
  rw [turnReads, Traced.value_bind, value_len hbuf]
  split_ifs
  · rw [Traced.value_bind, value_handleDataPkt hbuf, Traced.value_bind, value_seq hbuf]
    rfl
  · rfl

end Values

/-- The memory when a datagram has been stored in the buffer. -/
def Receiver.memory (r : Receiver) (a : Arrival) :
    ℕ → Byte := Srtp.memory (r.stored a.datagram) a.beyond

/-- A turn of the loop changes the receiver as `recvSrtpData` says. -/
theorem Receiver.recvSrtpData_eq {bo : ByteOrder} {r : Receiver} {a : Arrival}
    (h : headerSize ≤ (r.stored a.datagram).length) : r.recvSrtpData bo a =
      ⟨r.stored a.datagram, ((turnReads bo r.conn).value (r.memory a)).1,
        r.writes ++ ((turnReads bo r.conn).value (r.memory a)).2.1.toList,
        r.acked ++ ((turnReads bo r.conn).value (r.memory a)).2.2.toList⟩ := by
  rw [Receiver.memory, value_turn h, Receiver.recvSrtpData]
  dsimp only
  split_ifs
  · rfl
  · rw [Option.toList_none, Option.toList_none, List.append_nil, List.append_nil]

/-! ## What is read -/

section Places

variable (bo : ByteOrder) (mem : ℕ → Byte)

theorem reads_loadWord (i : ℕ) : (loadWord bo i).reads mem = [i, i + 1] := rfl

theorem reads_loadPayload :
    (loadPayload bo).reads mem =
      [0, 1] ++ (List.range ((loadWord bo 0).value mem).toNat).map
        (headerSize + headerSize + ·) := by
  rw [loadPayload, Traced.reads_bind, reads_loadWord, Traced.reads_bind, Traced.reads_loads,
    Traced.reads_pure,
    List.append_nil]

/-- Both branches of `handle_data_pkt` read the number, the length and the payload. -/
theorem reads_handleDataPkt (conn : Conn) :
    (handleDataPktReads bo conn).reads mem = [2, 3] ++ (loadPayload bo).reads mem := by
  rw [handleDataPktReads, Traced.reads_bind, reads_loadWord]
  split_ifs
  · rw [Traced.reads_bind, Traced.reads_pure, List.append_nil]
  · rw [Traced.reads_bind, Traced.reads_pure, List.append_nil]

theorem lt_of_mem_handleCmdPkt {i : ℕ} (h : i ∈ (handleCmdPktReads bo).reads mem) :
    i < headerSize := by
  have hsize : headerSize = 8 := rfl
  rw [handleCmdPktReads, Traced.reads_bind] at h
  split_ifs at h
  · simp only [Traced.reads_bind, Traced.reads_load, reads_loadWord, Traced.reads_pure,
      List.mem_append, List.mem_cons,
      List.not_mem_nil, or_false] at h
    omega
  · simp only [Traced.reads_bind, Traced.reads_load, Traced.reads_pure, List.mem_append,
      List.mem_cons,
      List.not_mem_nil, or_false] at h
    omega

theorem mem_loadPayload {i : ℕ} (hi : headerSize ≤ i) :
    i ∈ (loadPayload bo).reads mem ↔
      headerSize + headerSize ≤ i ∧
      i < headerSize + headerSize + ((loadWord bo 0).value mem).toNat := by
  have hsize : headerSize = 8 := rfl
  rw [reads_loadPayload, List.mem_append, List.mem_map]
  constructor
  · rintro (h | ⟨j, hj, rfl⟩)
    · simp only [List.mem_cons, List.not_mem_nil, or_false] at h
      omega
    · have := List.mem_range.mp hj
      omega
  · rintro ⟨h1, h2⟩
    exact Or.inr ⟨i - (headerSize + headerSize), List.mem_range.mpr (by omega), by omega⟩

/-- **The places a turn reads**: the start of the header; and behind the header, those of the
payload. -/
theorem mem_turn (conn : Conn) :
    0 ∈ (turnReads bo conn).reads mem ∧ ∀ i, headerSize ≤ i → (i ∈ (turnReads bo conn).reads mem ↔
      headerSize + headerSize ≤ i ∧
      i < headerSize + headerSize + ((loadWord bo 0).value mem).toNat) := by
  have hsize : headerSize = 8 := rfl
  rw [turnReads, Traced.reads_bind, reads_loadWord]
  refine ⟨List.mem_append_left _ List.mem_cons_self, fun i hi => ?_⟩
  have hfront : ∀ a, a < headerSize → i ≠ a := fun a ha => by omega
  split_ifs with hdata
  · rw [Traced.reads_bind, Traced.reads_bind, reads_handleDataPkt, reads_loadWord,
      Traced.reads_pure, ← mem_loadPayload bo mem hi]
    simp only [List.mem_append, List.mem_cons, List.not_mem_nil, hfront 0 (by omega),
      hfront 1 (by omega),
      hfront 2 (by omega), hfront 3 (by omega), Nat.zero_add, Nat.reduceAdd, false_or, or_false]
  · have hzero : ((loadWord bo 0).value mem).toNat = 0 := by
      have := UInt16.not_lt.mp hdata
      rw [UInt16.le_iff_toNat_le] at this
      exact Nat.le_zero.mp this
    refine iff_of_false ?_ (by omega)
    rw [Traced.reads_bind, Traced.reads_pure, List.append_nil, List.mem_append]
    rintro (h | h)
    · simp only [List.mem_cons, List.not_mem_nil, or_false] at h
      omega
    · exact absurd (lt_of_mem_handleCmdPkt bo mem h) (Nat.not_lt.mpr hi)

end Places

/-- What is asked of the places read for a datagram of `n` bytes: the header is read only if it is
there, and everything behind it that is read is in the datagram. -/
structure StaysInside (n : ℕ) (reads : List ℕ) : Prop where
  header : (∃ i ∈ reads, i < headerSize) → headerSize ≤ n
  payload : ∀ i ∈ reads, headerSize ≤ i → i < n

/-- **Payload handling stays inside the datagram** if and only if the datagram holds a header, and
it is a command packet or holds another header and the payload behind that. -/
theorem reads_inside_iff (bo : ByteOrder) (r : Receiver) (a : Arrival)
    (hbuf : r.buffer.length = bufferSize) (hn : a.datagram.length ≤ bufferSize) :
    StaysInside a.datagram.length ((turnReads bo r.conn).reads (r.memory a)) ↔
      headerSize ≤ a.datagram.length ∧ ((header bo a.datagram).len = 0 ∨
        headerSize + headerSize + (header bo a.datagram).len.toNat ≤ a.datagram.length) := by
  have hstored : headerSize ≤ (r.stored a.datagram).length := by
    rw [Receiver.stored, overlay, List.length_append, List.length_drop, hbuf, List.length_take]
    have hsize : headerSize = 8 := rfl
    have hmax : bufferSize = 2048 := rfl
    omega
  obtain ⟨hhead, hplaces⟩ := mem_turn bo (r.memory a) r.conn
  have hlen : headerSize ≤ a.datagram.length → (loadWord bo 0).value (r.memory a) =
      (header bo a.datagram).len := by
    intro h
    rw [Receiver.memory, value_len hstored, Receiver.stored, List.take_of_length_le hn,
      header_overlay h]
  constructor
  · intro h
    have hfull : headerSize ≤ a.datagram.length := h.header ⟨0, hhead, by decide⟩
    refine ⟨hfull, ?_⟩
    by_contra hbad
    obtain ⟨hdata, hlong⟩ := not_or.mp hbad
    -- the last byte of the payload is read
    have hpos : 0 < (header bo a.datagram).len.toNat := by
      rw [Nat.pos_iff_ne_zero]
      exact fun h0 => hdata (UInt16.toNat_inj.mp h0)
    have hlast := (hplaces (headerSize + headerSize + ((header bo a.datagram).len.toNat - 1))
      (by omega)).mpr
      ⟨by omega, by rw [hlen hfull]; omega⟩
    have := h.payload _ hlast (by omega)
    omega
  · rintro ⟨hfull, hok⟩
    refine ⟨fun _ => hfull, fun i hi hge => ?_⟩
    have hin := (hplaces i hge).mp hi
    rw [hlen hfull] at hin
    rcases hok with h0 | hfits
    · rw [h0, UInt16.toNat_zero] at hin
      omega
    · omega

/-- A buffer of zeros and a connection that expects packet `0`. -/
def idle : Receiver := ⟨List.replicate bufferSize 0, ⟨0, []⟩, [], []⟩

/-- A packet of one byte: its header, and the byte after `gap` bytes. -/
def oneByteAfter (gap : ℕ) : Arrival :=
  ⟨Header.bytes .little ⟨1, 0, 0, 0, 0⟩ ++ List.replicate gap 0 ++ [42], fun _ => 0⟩

theorem length_idle : idle.buffer.length = bufferSize := List.length_replicate

theorem reads_inside_two_headers :
    StaysInside 17 ((turnReads .little idle.conn).reads (idle.memory (oneByteAfter 8))) :=
  (reads_inside_iff .little idle (oneByteAfter 8) length_idle (by decide)).mpr ⟨by decide,
    Or.inr (by decide)⟩

/-- A packet of one byte in a datagram of nine bytes: byte `16` of the buffer is written to the
fifo.  And a datagram of one byte is read as a header. -/
theorem reads_outside :
    (oneByteAfter 0).datagram.length = 9 ∧ 16 ∈ (turnReads .little idle.conn).reads
      (idle.memory (oneByteAfter 0)) ∧
      ¬ StaysInside 9 ((turnReads .little idle.conn).reads (idle.memory (oneByteAfter 0))) ∧
      ¬ StaysInside 1 ((turnReads .little idle.conn).reads (idle.memory ⟨[1], fun _ => 0⟩)) := by
  have hread : 16 ∈ (turnReads .little idle.conn).reads (idle.memory (oneByteAfter 0)) :=
    ((mem_turn _ _ _).2 16 (by decide)).mpr ⟨by decide, by decide +kernel⟩
  refine ⟨rfl, hread, fun h => ?_, fun h => ?_⟩
  · exact absurd (h.payload 16 hread (by decide)) (by decide)
  · exact absurd (h.header ⟨0, (mem_turn _ _ _).1, by decide⟩) (by decide)

end FortyTwoHundred.Srtp
