import FortyTwoHundred.Srtp.InOrder
import FortyTwoHundred.Srtp.Send

/-!
# Framing — what the fifo gets of the chunks that are sent

`send_srtp_data` sends a chunk without a header, and never goes on to the next one; `recv_srtp_data`
reads the start of the buffer as a header and takes the payload from behind a second header.  So
the fifo gets the chunks only if the first chunk, over what the buffer held before, happens to look
like a packet that holds them all (`Framed`).
-/

namespace FortyTwoHundred.Srtp

/-- The buffer reads as a packet with number `0` whose payload, as `handle_data_pkt` takes it, is
`bs`. -/
def Framed (bo : ByteOrder) (buf : Bytes) (beyond : ℕ → Byte) (bs : Bytes) : Prop :=
  (header bo buf).len.toNat = bs.length ∧ (header bo buf).seq = 0 ∧
    peek buf beyond (headerSize + headerSize) bs.length = bs

namespace Receiver

variable {bo : ByteOrder} {r : Receiver}

/-- A datagram that is received again finds itself in the buffer. -/
theorem overlay_overlay (d mem : Bytes) : overlay d (overlay d mem) = overlay d mem := by
  simp [overlay]

/-- Copies of a datagram, once the packet it holds is not the expected one or no data packet, write
nothing. -/
theorem writes_copies {d buf : Bytes} (hbuf : overlay (d.take bufferSize) buf = buf)
    (as : List Arrival) (has : ∀ a ∈ as, a.datagram = d) {conn : Conn} {writes : List Write}
    {acked : List UInt16}
    (h : 0 < (header bo buf).len → conn.sequence ≠ (header bo buf).seq.toUInt32) :
    (Receiver.receive bo ⟨buf, conn, writes, acked⟩ as).writes = writes := by
  induction as generalizing conn acked with
  | nil => rfl
  | cons a as ih =>
    have ha : Receiver.stored ⟨buf, conn, writes, acked⟩ a.datagram = buf := by
        rw [has a (by simp)]; exact hbuf
    have hrest : ∀ b ∈ as, b.datagram = d := fun b hb => has b (by simp [hb])
    rw [receive_cons]
    by_cases hlen : 0 < (header bo buf).len
    · obtain ⟨inbox, hr⟩ := recvSrtpData_other (r := ⟨buf, conn, writes, acked⟩) (a := a)
        (by rwa [ha])
        (by rw [ha]; exact h hlen)
      rw [hr, ha]
      exact ih hrest h
    · have hr : recvSrtpData bo ⟨buf, conn, writes, acked⟩ a = ⟨buf, conn, writes, acked⟩ := by
        rw [recvSrtpData]
        dsimp only
        rw [ha, if_neg hlen]
      rw [hr]
      exact ih hrest h

/-- **What the fifo gets of copies of one datagram**: at most the first is written. -/
theorem writes_receive (bo : ByteOrder) (hr : r.Start) (a : Arrival) (as : List Arrival)
    (has : ∀ b ∈ as, b.datagram = a.datagram) : (r.receive bo (a :: as)).writes =
      if 0 < (header bo (r.stored a.datagram)).len ∧ (header bo (r.stored a.datagram)).seq = 0 then
        [⟨0, takenPayload bo (r.stored a.datagram) a.beyond⟩]
      else [] := by
  set buf := r.stored a.datagram with hbuf
  have hagain : overlay (a.datagram.take bufferSize) buf = buf := overlay_overlay _ _
  have hseq : r.conn.sequence = (header bo buf).seq.toUInt32 ↔ (header bo buf).seq = 0 := by
    rw [hr.sequence, ← UInt32.toNat_inj, ← UInt16.toNat_inj, UInt16.toNat_toUInt32]
    exact eq_comm
  rw [receive_cons]
  by_cases hlen : 0 < (header bo buf).len
  · by_cases h0 : (header bo buf).seq = 0
    · -- the first copy is written; the expected number is then `1`
      rw [recvSrtpData_next hlen (hseq.mpr h0), ← hbuf, writes_copies hagain as has,
        if_pos ⟨hlen, h0⟩, hr.writes, h0]
      · rfl
      · intro _
        rw [h0, hr.sequence]
        show (0 : UInt32) + 1 ≠ UInt16.toUInt32 0
        decide
    · obtain ⟨inbox, hnext⟩ := recvSrtpData_other hlen fun he => h0 (hseq.mp he)
      rw [hnext, ← hbuf, writes_copies hagain as has, if_neg fun h => h0 h.2]
      · exact hr.writes
      · exact fun _ he => h0 (hseq.mp he)
  · have hnext : r.recvSrtpData bo a = { r with buffer := buf } := by
      rw [recvSrtpData]
      dsimp only
      rw [← hbuf, if_neg hlen]
    rw [hnext, writes_copies hagain as has, if_neg fun h => hlen h.1]
    · exact hr.writes
    · exact fun h => absurd h hlen

end Receiver

/-- **Framing**: for every run of `client_proxy` on any chunks, when its datagrams are received once
and in order on a connection that expects number `0`, the fifo has the concatenation of the chunks
if and only if there are none, or the first datagram makes the buffer read as one packet that holds
them all. -/
theorem fifo_eq_chunks_iff (bo : ByteOrder) (chunks : List Bytes) (hchunks : ∀ c ∈ chunks, c ≠ [])
    (es : List ProxyEv) (p : Proxy) (hrun : Machine.exec Proxy.step (Proxy.init chunks) es = some p)
    (r : Receiver) (hr : r.Start) (as : List Arrival) (has : as.map Arrival.datagram = p.written) :
    (r.receive bo as).fifo = chunks.flatten ↔
      chunks = [] ∨ ∃ a, as.head? = some a ∧ Framed bo (r.stored a.datagram) a.beyond
        chunks.flatten := by
  cases chunks with
  | nil =>
    -- nothing is sent
    rw [Proxy.written_of_exec_nil hrun, List.map_eq_nil_iff] at has
    subst has
    simp [Receiver.fifo, hr.writes]
  | cons c cs =>
    have hflat : (c :: cs).flatten ≠ [] := by
      intro h
      exact hchunks c (by simp) (List.flatten_eq_nil_iff.mp h c (by simp))
    cases as with
    | nil =>
      have hfifo : (r.receive bo []).fifo = [] := by
        rw [Receiver.receive_nil, Receiver.fifo, hr.writes]
        rfl
      rw [hfifo]
      constructor
      · intro h
        exact absurd h.symm hflat
      · rintro (h | ⟨a, ha, -⟩)
        · cases h
        · cases ha
    | cons a as =>
      have hcopies : ∀ b ∈ a :: as, b.datagram = c := by
        intro b hb
        refine Proxy.written_of_exec hrun _ ?_
        rw [← has]
        exact List.mem_map_of_mem hb
      have hwrites := Receiver.writes_receive bo hr a as fun b hb => by
        rw [hcopies b (by simp [hb]), hcopies a (by simp)]
      rw [Receiver.fifo, hwrites]
      simp only [List.head?_cons, Option.some.injEq, exists_eq_left', reduceCtorEq,
        false_or, Framed]
      set buf := r.stored a.datagram
      constructor
      · intro h
        split_ifs at h with hdata
        · -- the length of what is written is the length field
          have htaken : takenPayload bo buf a.beyond = (c :: cs).flatten := by simpa using h
          have hlen : (header bo buf).len.toNat = (c :: cs).flatten.length := by rw [← htaken,
              takenPayload, length_peek]
          refine ⟨hlen, hdata.2, ?_⟩
          rw [← hlen]
          exact htaken
        · exact absurd h.symm hflat
      · rintro ⟨hlen, hseq, hpeek⟩
        have hpos : 0 < (header bo buf).len := by
          rw [UInt16.lt_iff_toNat_lt, hlen]
          exact List.length_pos_iff.mpr hflat
        rw [if_pos ⟨hpos, hseq⟩]
        simp only [List.flatMap_cons, List.flatMap_nil, List.append_nil, takenPayload]
        rw [hlen, hpeek]

/-- A chunk of one byte that is received into a buffer which makes it a packet. -/
theorem fifo_eq_chunks_iff_one : ∃ p,
    Machine.exec Proxy.step (Proxy.init [[1]]) [.read, .send (.write true 0)] = some p ∧
    p.written = [[1]] ∧
    (Receiver.receive .little ⟨List.replicate 16 0 ++ 1 :: List.replicate 2031 0, ⟨0, []⟩, [], []⟩
      [⟨[1], fun _ => 0⟩]).fifo = [1] := by
  obtain ⟨p, hp, hw⟩ : ∃ p, Machine.exec Proxy.step (Proxy.init [[1]])
      [.read, .send (.write true 0)] = some p ∧
      p.written = [[1]] := ⟨_, rfl, rfl⟩
  refine ⟨p, hp, hw, (fifo_eq_chunks_iff .little [[1]] (by simp) _ p hp _ ⟨rfl, rfl, rfl⟩
    [⟨[1], fun _ => 0⟩] hw.symm).mpr ?_⟩
  exact Or.inr ⟨_, rfl, by decide +kernel, by decide +kernel, by decide +kernel⟩

/-- `Hello World!` and a line end, as bytes. -/
def hello : Bytes := [72, 101, 108, 108, 111, 32, 87, 111, 114, 108, 100, 33, 13, 10]

/-- The message of the tests: its letters are read as a header with number `0x6c6c`, nothing is
written, and the number is acknowledged. -/
theorem hello_not_framed : ∃ p,
    Machine.exec Proxy.step (Proxy.init [hello]) [.read, .send (.write true 0)] = some p ∧
    p.written = [hello] ∧
    (Receiver.receive .little DataStream.fresh [⟨hello, fun _ => 0⟩]).acked = [0x6c6c] ∧
    (Receiver.receive .little DataStream.fresh [⟨hello, fun _ => 0⟩]).fifo = [] ∧
    (Receiver.receive .little DataStream.fresh [⟨hello, fun _ => 0⟩]).fifo ≠ [hello].flatten := by
  have hfifo : (Receiver.receive .little DataStream.fresh [⟨hello, fun _ => 0⟩]).fifo = [] := by
      decide +kernel
  refine ⟨_, rfl, rfl, by decide +kernel, hfifo, ?_⟩
  rw [hfifo]
  decide

end FortyTwoHundred.Srtp
