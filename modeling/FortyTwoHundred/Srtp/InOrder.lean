import FortyTwoHundred.Lib.Reassembly
import FortyTwoHundred.Srtp.Receive

/-!
# InOrder — the packets of one stream that reach the fifo

A stream of data packets with the numbers `0, …, n - 1` arrives in any order, with omissions and
repetitions.  The packet with the expected number is written to the fifo and the expected number
goes up by one; the inbox, where the other packets are, is never looked at again.  So a packet that
arrives before its predecessor stays in the inbox although the gap is closed later, and although it
has been acknowledged.  A stream that arrives in order is passed on as long as its numbers do not
start again (`long_stream_iff`).
-/

namespace FortyTwoHundred.Srtp

open Reassembly (missing)

/-- Data packets with the numbers `0, …, n - 1`; the number has 16 bits, so `n` is at most
`65536`. -/
structure DataStream (bo : ByteOrder) (n : ℕ) where
  datagram : ℕ → Bytes
  seq : ∀ i < n, (header bo (datagram i)).seq.toNat = i
  data : ∀ i < n, 0 < (header bo (datagram i)).len
  length : ∀ i < n, (datagram i).length = headerSize + (header bo (datagram i)).len.toNat

/-- A packet of such a stream by its number, and the memory after the buffer when it is handled. -/
abbrev Numbered (n : ℕ) := Fin n × (ℕ → Byte)

/-- A connection that expects the first packet, before anything has arrived. -/
structure Receiver.Start (r : Receiver) : Prop where
  sequence : r.conn.sequence = 0
  writes : r.writes = []
  acked : r.acked = []

namespace DataStream

variable {bo : ByteOrder} {n : ℕ} (S : DataStream bo n)

/-- `PKT_PAYLOADPTR`: the payload follows the header. -/
def payload (i : ℕ) : Bytes := (S.datagram i).drop headerSize

def arrival (a : Numbered n) : Arrival := ⟨S.datagram a.1, a.2⟩

def receive (r : Receiver) (as : List (Numbered n)) : Receiver := r.receive bo (as.map S.arrival)

/-- The numbers of the packets that have arrived. -/
def numbers (as : List (Numbered n)) : List ℕ := as.map fun a => (a.1 : ℕ)

/-- The fifo has been given the payloads of all packets before the first gap, once each and in
order; and every packet that has been acknowledged and whose predecessors have all arrived is among
them. -/
def Reassembled (as : List (Numbered n)) (r : Receiver) : Prop :=
  r.writes = (List.range (missing (numbers as))).map (fun i => ⟨UInt16.ofNat i, S.payload i⟩) ∧
    ∀ q ∈ r.acked, (∀ j < q.toNat, j ∈ numbers as) → q ∈ r.writes.map Write.seq

variable {S}

theorem header_stored (r : Receiver) (i : Fin n) :
    header bo (r.stored (S.datagram i)) = header bo (S.datagram i) := by
  have hlen := S.length i i.2
  have hsize : headerSize ≤ bufferSize := by decide
  rw [Receiver.stored, header_overlay (by rw [List.length_take]; omega), header_take hsize]

/-- What holds after any arrivals. -/
structure Inv (as : List (Numbered n)) (r : Receiver) : Prop where
  sequence : r.conn.sequence.toNat = r.writes.length
  acked : r.acked.map UInt16.toNat = numbers as

/-- **One arrival**: the packet is written if its number is the number of packets written before. -/
theorem Inv.recv {as : List (Numbered n)} {r : Receiver} (h : Inv as r) (a : Numbered n) :
    Inv (as ++ [a]) (r.recvSrtpData bo (S.arrival a)) ∧
      (r.recvSrtpData bo (S.arrival a)).writes =
        if (a.1 : ℕ) = r.writes.length then
          r.writes ++ [⟨UInt16.ofNat a.1, takenPayload bo (r.stored (S.datagram a.1)) a.2⟩]
        else r.writes := by
  have hhead := header_stored (S := S) r a.1
  have hseq := S.seq a.1 a.1.2
  have hlt : (a.1 : ℕ) < 65536 := hseq ▸ (header bo (S.datagram a.1)).seq.toNat_lt
  have hofNat : UInt16.ofNat a.1 = (header bo (S.datagram a.1)).seq := by
    rw [← UInt16.toNat_inj, hseq, UInt16.toNat_ofNat_of_lt' hlt]
  have hlen : 0 < (header bo (r.stored (S.arrival a).datagram)).len := by
    rw [arrival, hhead]
    exact S.data a.1 a.1.2
  have hacked : ∀ q : UInt16, q = (header bo (S.datagram a.1)).seq →
      (r.acked ++ [q]).map UInt16.toNat = numbers (as ++ [a]) := by
    rintro q rfl
    rw [List.map_append, h.acked, numbers, numbers, List.map_append, List.map_singleton,
      List.map_singleton, hseq]
  have hexp : r.conn.sequence = (header bo (r.stored (S.arrival a).datagram)).seq.toUInt32 ↔
      (a.1 : ℕ) = r.writes.length := by
    rw [arrival, hhead, ← UInt32.toNat_inj, h.sequence, UInt16.toNat_toUInt32, hseq, eq_comm]
  by_cases hnext : (a.1 : ℕ) = r.writes.length
  · rw [Receiver.recvSrtpData_next hlen (hexp.mpr hnext), if_pos hnext]
    refine ⟨⟨?_, hacked _ (by rw [arrival, hhead])⟩, ?_⟩
    · have hs := h.sequence
      rw [← hnext] at hs
      simp only [UInt32.toNat_add, List.length_append, List.length_singleton, hs, ← hnext]
      exact Nat.mod_eq_of_lt (by simp; omega)
    · rw [hofNat, ← hhead]
      rfl
  · obtain ⟨inbox, hr⟩ := Receiver.recvSrtpData_other hlen fun he => hnext (hexp.mp he)
    rw [hr, if_neg hnext]
    exact ⟨⟨h.sequence, hacked _ (by rw [arrival, hhead])⟩, rfl⟩

theorem receive_concat (r : Receiver) (as : List (Numbered n)) (a : Numbered n) :
    S.receive r (as ++ [a]) = (S.receive r as).recvSrtpData bo (S.arrival a) := by
  rw [receive, List.map_append, Receiver.receive_append]
  rfl

theorem Inv.receive {r : Receiver} (hr : r.Start) (as : List (Numbered n)) :
    Inv as (S.receive r as) := by
  induction as using List.reverseRecOn with
  | nil =>
    exact ⟨by simp [DataStream.receive, hr.sequence, hr.writes], by simp [DataStream.receive,
      hr.acked, numbers]⟩
  | append_singleton as a ih =>
    rw [receive_concat]
    exact (ih.recv a).1

/-- The write that packet `a` gives if it is the expected one after the arrivals `fs`. -/
def writeOf (S : DataStream bo n) (r : Receiver) (fs : List (Numbered n)) (a : Numbered n) :
    Write :=
  ⟨UInt16.ofNat a.1, takenPayload bo ((S.receive r fs).stored (S.datagram a.1)) a.2⟩

theorem writes_concat {r : Receiver} (hr : r.Start) (fs : List (Numbered n)) (a : Numbered n) :
    (S.receive r (fs ++ [a])).writes =
      if (a.1 : ℕ) = (S.receive r fs).writes.length then (S.receive r fs).writes ++
        [S.writeOf r fs a]
      else (S.receive r fs).writes := by
  rw [receive_concat]
  exact ((Inv.receive hr fs).recv a).2

/-- **Reassembly**: after every arrival the fifo has been given the packets before the first gap, if
and only if every packet that arrives as the first missing one comes before its successor and
stands in the buffer so that its payload is what `handle_data_pkt` takes. -/
theorem reassembled_iff (S : DataStream bo n) (r : Receiver) (hr : r.Start)
    (as : List (Numbered n)) : (∀ fs, fs <+: as → S.Reassembled fs (S.receive r fs)) ↔
      ∀ fs a gs, as = fs ++ a :: gs → (a.1 : ℕ) = missing (numbers fs) →
        (a.1 : ℕ) + 1 ∉ numbers fs ∧
          takenPayload bo ((S.receive r fs).stored (S.datagram a.1)) a.2 = S.payload a.1 := by
  have hiff := Reassembly.log_eq_iff (fun a : Numbered n => (a.1 : ℕ))
      (fun fs => (S.receive r fs).writes)
    (S.writeOf r) hr.writes (writes_concat hr) (fun i => ⟨UInt16.ofNat i, S.payload i⟩) as
  simp only [writeOf, Write.mk.injEq, true_and] at hiff
  refine Iff.trans ⟨fun h fs hfs => (h fs hfs).1, fun h fs hfs => ⟨h fs hfs, ?_⟩⟩ hiff
  -- a packet that has been acknowledged has arrived, so it is before the gap
  intro q hq hpred
  have harrived : q.toNat ∈ numbers fs := by
    rw [← (Inv.receive (S := S) hr fs).acked]
    exact List.mem_map_of_mem hq
  rw [h fs hfs]
  have hlt := Reassembly.lt_missing harrived hpred
  simp only [List.map_map, List.mem_map, List.mem_range]
  exact ⟨q.toNat, hlt, UInt16.ofNat_toNat⟩

/-- Packets of one byte, which is `0`. -/
def zeros : DataStream .little 2 where
  datagram i := Header.bytes .little ⟨1, UInt16.ofNat i, 0, 0, 0⟩ ++ [0]
  seq i hi := by
    rw [header_bytes]
    exact UInt16.toNat_ofNat_of_lt' (hi.trans (by decide))
  data i _ := by
    rw [header_bytes]
    show (0 : UInt16) < 1
    decide
  length i _ := by rw [header_bytes, List.length_append, Header.length_bytes]; rfl

/-- A buffer of zeros and a connection that expects packet `0`. -/
def fresh : Receiver := ⟨List.replicate bufferSize 0, ⟨0, []⟩, [], []⟩

theorem reassembled_iff_zeros :
    (zeros.receive fresh [(0, fun _ => 0), (1, fun _ => 0)]).writes = [⟨0, [0]⟩, ⟨1, [0]⟩] ∧
      zeros.Reassembled [(0, fun _ => 0), (1, fun _ => 0)]
      (zeros.receive fresh [(0, fun _ => 0), (1, fun _ => 0)]) := by
  refine ⟨by decide +kernel, (reassembled_iff zeros fresh ⟨rfl, rfl, rfl⟩ _).mpr ?_ _
    (List.prefix_refl _)⟩
  intro fs a gs has _
  match fs, has with
  | [], has =>
    obtain ⟨rfl, -⟩ := List.cons.inj has
    exact ⟨by simp [numbers], by decide +kernel⟩
  | [b], has =>
    obtain ⟨rfl, hrest⟩ := List.cons.inj has
    obtain ⟨rfl, -⟩ := List.cons.inj (hrest : [_] = a :: gs)
    exact ⟨by simp [numbers], by decide +kernel⟩
  | b :: c :: fs, has => simp at has

/-- Packet `1` arrives before packet `0`: both are acknowledged, and packet `1` stays in the
inbox. -/
theorem packet_left_in_inbox :
    missing (numbers (n := 2) [(1, fun _ => 0), (0, fun _ => 0)]) = 2 ∧
      (zeros.receive fresh [(1, fun _ => 0), (0, fun _ => 0)]).acked = [1, 0] ∧
      (zeros.receive fresh [(1, fun _ => 0), (0, fun _ => 0)]).writes = [⟨0, [0]⟩] ∧
      ¬ zeros.Reassembled [(1, fun _ => 0), (0, fun _ => 0)]
      (zeros.receive fresh [(1, fun _ => 0), (0, fun _ => 0)]) := by
  have hmissing : missing (numbers (n := 2) [(1, fun _ => 0), (0, fun _ => 0)]) = 2 :=
    Reassembly.missing_eq (by simp [numbers]) (by simp only [numbers]; decide)
  have hwrites : (zeros.receive fresh [(1, fun _ => 0), (0, fun _ => 0)]).writes = [⟨0, [0]⟩] := by
    decide +kernel
  refine ⟨hmissing, by decide +kernel, hwrites, ?_⟩
  rintro ⟨h, -⟩
  rw [hwrites, hmissing] at h
  exact absurd (congrArg List.length h) (by simp)

end DataStream

/-! ## Long streams

The expected number has 32 bits and the number of a packet 16, so they part after `65536`
packets. -/

/-- `handle_data_pkt` for one packet after the other: the connection at the end, and the write of
each call.  A packet is given by the buffer that holds it and the memory after that. -/
def handleDataPkts (bo : ByteOrder) : List (Bytes × (ℕ → Byte)) → Conn → Conn × List (Option Write)
  | [], conn => (conn, [])
  | p :: ps, conn =>
    let first := handleDataPkt bo p.1 p.2 conn
    let rest := handleDataPkts bo ps first.1
    (rest.1, first.2 :: rest.2)

theorem handleDataPkts_append (bo : ByteOrder) (ps qs : List (Bytes × (ℕ → Byte))) (conn : Conn) :
    handleDataPkts bo (ps ++ qs) conn =
      ((handleDataPkts bo qs (handleDataPkts bo ps conn).1).1,
        (handleDataPkts bo ps conn).2 ++
          (handleDataPkts bo qs (handleDataPkts bo ps conn).1).2) := by
  induction ps generalizing conn with
  | nil => rfl
  | cons p ps ih =>
    rw [List.cons_append, handleDataPkts, ih]
    rfl

/-- Every packet has been written at once, and none has been put in the inbox. -/
def PassedOn (bo : ByteOrder) (packets : List (Bytes × (ℕ → Byte))) (conn : Conn) : Prop :=
  (handleDataPkts bo packets conn).2 =
    packets.map (fun p => some ⟨(header bo p.1).seq, takenPayload bo p.1 p.2⟩) ∧
    (handleDataPkts bo packets conn).1.inbox = conn.inbox

section Long

variable {bo : ByteOrder} {packet : ℕ → Bytes × (ℕ → Byte)} {n : ℕ} {conn : Conn}

/-- Up to `65536` packets the two numbers agree. -/
theorem passedOn_range (hn : n ≤ 65536)
    (hseq : ∀ i < n, (header bo (packet i).1).seq = UInt16.ofNat i)
    (h0 : conn.sequence = 0) :
    PassedOn bo ((List.range n).map packet) conn ∧
      (handleDataPkts bo ((List.range n).map packet) conn).1.sequence = UInt32.ofNat n := by
  induction n with
  | zero => exact ⟨⟨rfl, rfl⟩, h0⟩
  | succ n ih =>
    obtain ⟨⟨hwrites, hinbox⟩, hsequence⟩ := ih (by omega) fun i hi => hseq i (by omega)
    have h16 : n < UInt16.size := by show n < 65536; omega
    have h32 : n < UInt32.size := by show n < 4294967296; omega
    have hnext : (handleDataPkts bo ((List.range n).map packet) conn).1.sequence =
        (header bo (packet n).1).seq.toUInt32 := by
      rw [hsequence, hseq n (by omega), ← UInt32.toNat_inj, UInt16.toNat_toUInt32,
        UInt16.toNat_ofNat_of_lt' h16,
        UInt32.toNat_ofNat_of_lt' h32]
    have hlast : ∀ c : Conn, c.sequence = (header bo (packet n).1).seq.toUInt32 →
        handleDataPkts bo [packet n] c =
          ({ c with sequence := c.sequence + 1 },
            [some ⟨(header bo (packet n).1).seq, takenPayload bo (packet n).1 (packet n).2⟩]) := by
      intro c hc
      rw [handleDataPkts, handleDataPkts, handleDataPkt]
      dsimp only
      rw [if_pos hc]
    unfold PassedOn
    rw [List.range_succ, List.map_append, List.map_singleton, handleDataPkts_append, hlast _ hnext]
    refine ⟨⟨?_, hinbox⟩, ?_⟩
    · rw [hwrites, List.map_append, List.map_singleton]
    · rw [hsequence, UInt32.ofNat_add]
      rfl

/-- Packet `65536` has the number `0` again, and the connection expects `65536`. -/
theorem not_passedOn_range (hn : 65536 < n)
    (hseq : ∀ i < n, (header bo (packet i).1).seq = UInt16.ofNat i)
    (h0 : conn.sequence = 0) : ¬ PassedOn bo ((List.range n).map packet) conn := by
  rintro ⟨hwrites, -⟩
  obtain ⟨m, rfl⟩ : ∃ m, n = 65536 + (m + 1) := ⟨n - 65537, by omega⟩
  obtain ⟨⟨hfirst, -⟩, hsequence⟩ :=
    passedOn_range (n := 65536) le_rfl (fun i hi => hseq i (by omega)) h0
  have hwrap : (handleDataPkts bo ((List.range 65536).map packet) conn).1.sequence ≠
      (header bo (packet 65536).1).seq.toUInt32 := by
    rw [hsequence, hseq 65536 (by omega)]
    decide
  have hhead : List.range (m + 1) = 0 :: (List.range m).map Nat.succ := List.range_succ_eq_map
  rw [List.range_add, hhead, List.map_append, handleDataPkts_append, hfirst,
    List.map_append] at hwrites
  -- the first of the remaining calls writes nothing
  have hrest := List.append_cancel_left hwrites
  rw [List.map_cons, List.map_cons, handleDataPkts, List.map_cons, handleDataPkt] at hrest
  dsimp only at hrest
  rw [if_neg (by exact hwrap)] at hrest
  exact absurd (List.cons.inj hrest).1 (by simp)

end Long

/-- **Long streams**: packets with the numbers `0, …, n - 1` modulo `2 ^ 16`, in order on a
connection that expects `0`, are all passed to the fifo at once, and none to the inbox, if and only
if there are at most `65536`. -/
theorem long_stream_iff (bo : ByteOrder) (n : ℕ) (packet : ℕ → Bytes × (ℕ → Byte)) (conn : Conn)
    (hseq : ∀ i < n, (header bo (packet i).1).seq = UInt16.ofNat i) (h0 : conn.sequence = 0) :
    PassedOn bo ((List.range n).map packet) conn ↔ n ≤ 65536 := by
  refine ⟨fun h => ?_, fun hn => (passedOn_range hn hseq h0).1⟩
  by_contra hn
  exact not_passedOn_range (by omega) hseq h0 h

/-- Packets of one byte. -/
def onePacket (i : ℕ) : Bytes × (ℕ → Byte) :=
  (Header.bytes .little ⟨1, UInt16.ofNat i, 0, 0, 0⟩ ++ [0], fun _ => 0)

theorem seq_onePacket (i : ℕ) : (header .little (onePacket i).1).seq = UInt16.ofNat i := by
  rw [onePacket, header_bytes]

theorem long_stream_two : PassedOn .little ((List.range 2).map onePacket) ⟨0, []⟩ :=
  (long_stream_iff .little 2 onePacket ⟨0, []⟩ (fun i _ => seq_onePacket i) rfl).mpr (by decide)

/-- One packet more than there are numbers. -/
theorem packet_after_wrap_held_back :
    ¬ PassedOn .little ((List.range 65537).map onePacket) ⟨0, []⟩ :=
  not_passedOn_range (by decide) (fun i _ => seq_onePacket i) rfl

end FortyTwoHundred.Srtp
