import FortyTwoHundred.Srtp.Framing

/-!
# Delivery — a sender, a network and one connection

`client_proxy` sends, the network keeps every datagram it was given and hands any of them to the
connection at any time, any number of times or never, and the polls of the sender find whatever
they find.  `Conversation` is the three together, with one connection of the receiver that is given
all that arrives.  (In the code each further datagram of a sender gets a connection of its own, see
`Unread`.)

All datagrams are copies of the first chunk, and the connection does one thing for each of them: it
writes the first copy to the fifo, if it has the expected number, and keeps every other one in the
inbox, which nothing empties.  So the fifo gets a part of the first chunk at most once, nothing of
the others ever, and each retransmission costs the server memory (`first_chunk_once`).
-/

namespace FortyTwoHundred.Srtp

structure Conversation where
  proxy : Proxy
  receiver : Receiver
  /-- number of datagrams handed to the connection -/
  delivered : ℕ

inductive ConversationEv
  | proxy (e : ProxyEv)
  /-- the datagram with this number, and the memory after the buffer -/
  | deliver (k : ℕ) (beyond : ℕ → Byte)

namespace Conversation

def step (bo : ByteOrder) (s : Conversation) : ConversationEv → Option Conversation
  | .proxy e => (s.proxy.step e).map fun p => { s with proxy := p }
  | .deliver k beyond =>
    (s.proxy.written[k]?).map fun d =>
      { s with receiver := s.receiver.recvSrtpData bo ⟨d, beyond⟩, delivered := s.delivered + 1 }

def init (chunks : List Bytes) (r : Receiver) : Conversation := ⟨Proxy.init chunks, r, 0⟩

end Conversation

namespace Receiver

theorem length_insertMesg (m : Mesg) (xs : List Mesg) :
    (insertMesg m xs).length = xs.length + 1 := by
  induction xs with
  | nil => rfl
  | cons x xs ih =>
    rw [insertMesg]
    split_ifs
    · rfl
    · rw [List.length_cons, ih, List.length_cons]

/-- A connection that started as `r₀` and has received `n` copies of `d`; `buf` is what its buffer
holds then. -/
structure Copies (bo : ByteOrder) (d : Bytes) (buf : Bytes) (n : ℕ) (r : Receiver) : Prop where
  stored : r.stored d = buf
  command : (header bo buf).len = 0 → r.writes = [] ∧ r.conn.inbox = [] ∧ r.acked = []
  acked : 0 < (header bo buf).len → r.acked = List.replicate n (header bo buf).seq
  kept : 0 < (header bo buf).len → r.writes.length + r.conn.inbox.length = n
  other : (header bo buf).seq ≠ 0 → r.conn.sequence = 0 ∧ r.writes = []
  first : (header bo buf).seq = 0 → 0 < (header bo buf).len →
    (n = 0 ∧ r.conn.sequence = 0 ∧ r.writes = []) ∨
      r.conn.sequence = 1 ∧ ∃ beyond, r.writes = [⟨0, takenPayload bo buf beyond⟩]

variable {bo : ByteOrder} {d buf : Bytes} {n : ℕ} {r : Receiver}

theorem Copies.start (hr : r.Start) (hinbox : r.conn.inbox = []) : Copies bo d (r.stored d) 0 r :=
  ⟨rfl, fun _ => ⟨hr.writes, hinbox, hr.acked⟩, fun _ => hr.acked,
    fun _ => by rw [hr.writes, hinbox]; rfl,
    fun _ => ⟨hr.sequence, hr.writes⟩, fun _ _ => Or.inl ⟨rfl, hr.sequence, hr.writes⟩⟩

/-- A data packet without the expected number: it is kept in the inbox. -/
theorem recvSrtpData_kept {a : Arrival} (hlen : 0 < (header bo (r.stored a.datagram)).len)
    (hseq : r.conn.sequence ≠ (header bo (r.stored a.datagram)).seq.toUInt32) :
    ∃ m, r.recvSrtpData bo a =
      ⟨r.stored a.datagram, { r.conn with inbox := insertMesg m r.conn.inbox }, r.writes,
      r.acked ++ [(header bo (r.stored a.datagram)).seq]⟩ := by
  rw [recvSrtpData, handleDataPkt]
  dsimp only
  rw [if_pos hlen, if_neg hseq, Option.toList_none, List.append_nil]
  exact ⟨_, rfl⟩

/-- **One more copy.** -/
theorem Copies.recv (h : Copies bo d buf n r) (beyond : ℕ → Byte) :
    Copies bo d buf (n + 1) (r.recvSrtpData bo ⟨d, beyond⟩) := by
  have hagain : ∀ {r' : Receiver}, r'.buffer = buf → r'.stored d = buf := by
    intro r' hr'
    rw [Receiver.stored, hr', ← h.stored]
    exact overlay_overlay _ _
  have hsucc : ∀ q : UInt16, List.replicate n q ++ [q] = List.replicate (n + 1) q := fun q =>
      List.replicate_succ'.symm
  have hzero : ∀ q : UInt16, (0 : UInt32) = q.toUInt32 ↔ q = 0 := by
    intro q
    rw [← UInt32.toNat_inj, ← UInt16.toNat_inj, UInt16.toNat_toUInt32]
    exact eq_comm
  by_cases hlen : 0 < (header bo buf).len
  · have hne : (header bo buf).len ≠ 0 := by
      intro h0
      rw [h0] at hlen
      exact absurd hlen (by decide)
    have hlen' : 0 < (header bo (r.stored (Arrival.mk d beyond).datagram)).len := by
      rw [h.stored]
      exact hlen
    have hacked := h.acked hlen
    have hkept := h.kept hlen
    by_cases hexp : r.conn.sequence = (header bo buf).seq.toUInt32
    · -- the expected number: it is `0`, and this is the first copy
      have hr := recvSrtpData_next hlen' (by rw [h.stored]; exact hexp)
      dsimp only at hr
      rw [h.stored] at hr
      have h0 : (header bo buf).seq = 0 := by
        by_contra hother
        rw [(h.other hother).1] at hexp
        exact hother ((hzero _).mp hexp)
      have hsequence : r.conn.sequence = 0 := by
        rw [hexp, h0]
        rfl
      obtain ⟨rfl, -, hw⟩ : n = 0 ∧ r.conn.sequence = 0 ∧ r.writes = [] := by
        rcases h.first h0 hlen with hf | ⟨h1, -⟩
        · exact hf
        · rw [hsequence] at h1
          cases h1
      rw [hr]
      refine ⟨hagain rfl, fun hc => absurd hc hne, fun _ => ?_, fun _ => ?_,
        fun hother => absurd h0 hother, fun _ _ => ?_⟩
      · rw [hacked]
        exact hsucc _
      · rw [hw] at hkept ⊢
        simpa using hkept
      · refine Or.inr ⟨?_, beyond, ?_⟩
        · rw [hsequence]
          rfl
        · rw [hw, h0]
          rfl
    · obtain ⟨m, hr⟩ := recvSrtpData_kept hlen' (by rw [h.stored]; exact hexp)
      dsimp only at hr
      rw [h.stored] at hr
      rw [hr]
      refine ⟨hagain rfl, fun hc => absurd hc hne, fun _ => ?_, fun _ => ?_, h.other,
        fun h0 _ => ?_⟩
      · rw [hacked]
        exact hsucc _
      · dsimp only
        rw [length_insertMesg]
        omega
      · rcases h.first h0 hlen with ⟨-, hs, -⟩ | hf
        · exact absurd (by rw [hs, h0]; rfl) hexp
        · exact Or.inr hf
  · -- no data packet: nothing happens
    have hr : r.recvSrtpData bo ⟨d, beyond⟩ = { r with buffer := buf } := by
      rw [recvSrtpData]
      dsimp only
      rw [h.stored, if_neg hlen]
    rw [hr]
    exact ⟨hagain rfl, h.command, fun hd => absurd hd hlen, fun hd => absurd hd hlen, h.other,
      fun _ hd => absurd hd hlen⟩

end Receiver

namespace Proxy

/-- The proxy reads once. -/
theorem input_of_exec {c : Bytes} {cs : List Bytes} {es : List ProxyEv} {p : Proxy}
    (h : Machine.exec step (Proxy.init (c :: cs)) es = some p) :
    p.input = c :: cs ∨ p.input = cs := by
  refine (Machine.exec_invariant (I := fun p => First c cs p ∧
    (p.input = c :: cs ∨ p.input = cs)) ?_
    ⟨First.init c cs, Or.inl rfl⟩ h).2
  rintro p e q ⟨hfirst, hin⟩ hs
  refine ⟨hfirst.step hs, ?_⟩
  unfold Proxy.step at hs
  split_ifs at hs with hended
  split at hs
  · next hcall =>
    obtain rfl := hfirst.start hcall (by simpa using hended)
    obtain rfl := Option.some.inj hs
    rw [readStep, Proxy.init]
    dsimp only
    split_ifs
    · exact Or.inl rfl
    · exact Or.inr rfl
  · next s i hcall =>
    obtain ⟨t, -, rfl⟩ := Option.map_eq_some_iff.mp hs
    rw [afterSend]
    split
    · exact hin
    · exact hin
  · cases hs

end Proxy

namespace Conversation

/-- What holds in every state: the sender is a run of `client_proxy`, and the connection has
received copies of the first chunk. -/
structure Inv (bo : ByteOrder) (c : Bytes) (cs : List Bytes) (buf : Bytes) (s : Conversation) :
    Prop where
  sender : ∃ ps, Machine.exec Proxy.step (Proxy.init (c :: cs)) ps = some s.proxy
  receiver : s.receiver.Copies bo c buf s.delivered

theorem Inv.step {bo : ByteOrder} {c buf : Bytes} {cs : List Bytes} {s t : Conversation}
    (h : Inv bo c cs buf s) {e : ConversationEv} (hs : s.step bo e = some t) :
    Inv bo c cs buf t := by
  obtain ⟨ps, hps⟩ := h.sender
  cases e with
  | proxy e =>
    obtain ⟨p, hp, rfl⟩ := Option.map_eq_some_iff.mp hs
    exact ⟨⟨ps ++ [e], Machine.exec_append.mpr ⟨s.proxy, hps, Machine.exec_cons_some.mpr ⟨p, hp,
      rfl⟩⟩⟩, h.receiver⟩
  | deliver k beyond =>
    obtain ⟨d, hd, rfl⟩ := Option.map_eq_some_iff.mp hs
    obtain rfl := Proxy.written_of_exec hps d (List.mem_of_getElem? hd)
    exact ⟨⟨ps, hps⟩, h.receiver.recv beyond⟩

/-- **The first chunk once, and nothing else.**  In every run of `client_proxy` on a first chunk and
any others, over a network that loses, duplicates, delays and reorders, whatever the sender's polls
find, with a connection that expects number `0` and has an empty inbox: the proxy never reads
another chunk, and sends copies of the first one only.  Where the buffer with that chunk in it
reads as a data packet, every copy is acknowledged, with one and the same number, and is either
written or in the inbox; one is written exactly if any has arrived and that number is `0`, and no
other.  Where it reads as a command, nothing happens. -/
theorem first_chunk_once (bo : ByteOrder) (c : Bytes) (cs : List Bytes) (r : Receiver)
    (hr : r.Start) (hinbox : r.conn.inbox = []) (es : List ConversationEv) (s : Conversation)
    (h : Machine.exec (step bo) (init (c :: cs) r) es = some s) :
    (s.proxy.input = c :: cs ∨ s.proxy.input = cs) ∧ (∀ d ∈ s.proxy.written, d = c) ∧
    (0 < (header bo (r.stored c)).len →
      s.receiver.acked = List.replicate s.delivered (header bo (r.stored c)).seq ∧
      s.receiver.writes.length + s.receiver.conn.inbox.length = s.delivered ∧
      (s.receiver.writes ≠ [] ↔ 0 < s.delivered ∧ (header bo (r.stored c)).seq = 0) ∧
      ∀ w ∈ s.receiver.writes, s.receiver.writes = [w] ∧
      ∃ beyond, w = ⟨0, takenPayload bo (r.stored c) beyond⟩) ∧
    ((header bo (r.stored c)).len = 0 → s.receiver.writes = [] ∧ s.receiver.conn.inbox = [] ∧
      s.receiver.acked = []) := by
  obtain ⟨⟨ps, hps⟩, hrecv⟩ : Inv bo c cs (r.stored c) s :=
    Machine.exec_invariant (I := Inv bo c cs (r.stored c)) (fun _ _ _ hI hs => hI.step hs)
      ⟨⟨[], rfl⟩, .start hr hinbox⟩ h
  refine ⟨Proxy.input_of_exec hps, Proxy.written_of_exec hps, fun hlen => ?_, hrecv.command⟩
  refine ⟨hrecv.acked hlen, hrecv.kept hlen, ?_, ?_⟩
  · constructor
    · intro hw
      by_cases h0 : (header bo (r.stored c)).seq = 0
      · refine ⟨?_, h0⟩
        rcases hrecv.first h0 hlen with ⟨-, -, hnone⟩ | ⟨-, beyond, hone⟩
        · exact absurd hnone hw
        · have hkept := hrecv.kept hlen
          rw [hone, List.length_singleton] at hkept
          omega
      · exact absurd (hrecv.other h0).2 hw
    · rintro ⟨hpos, h0⟩
      rcases hrecv.first h0 hlen with ⟨hn, -, -⟩ | ⟨-, beyond, hone⟩
      · omega
      · simp [hone]
  · intro w hw
    by_cases h0 : (header bo (r.stored c)).seq = 0
    · rcases hrecv.first h0 hlen with ⟨-, -, hnone⟩ | ⟨-, beyond, hone⟩
      · simp [hnone] at hw
      · rw [hone] at hw ⊢
        obtain rfl := List.mem_singleton.mp hw
        exact ⟨rfl, beyond, rfl⟩
    · simp [(hrecv.other h0).2] at hw

/-- A chunk that looks like a packet with number `0` and one byte of payload, behind two headers. -/
def packetChunk : Bytes := [1, 0, 0, 0, 0, 0, 0, 0, 0, 0, 0, 0, 0, 0, 0, 0, 42]

/-- It is sent twice, and three copies of the first datagram arrive. -/
def threeCopies : List ConversationEv :=
  [.proxy .read, .proxy (.send (.write true 0)), .deliver 0 fun _ => 0,
    .proxy (.send (.poll none 1)),
    .proxy (.send (.write true 1)), .deliver 0 fun _ => 0, .deliver 0 fun _ => 0]

theorem first_chunk_once_threeCopies : ∃ s,
    Machine.exec (step .little) (init [packetChunk, [7]] DataStream.fresh) threeCopies = some s ∧
    s.proxy.written = [packetChunk, packetChunk] ∧ s.receiver.writes.length = 1 ∧
    s.receiver.conn.inbox.length = 2 := by
  obtain ⟨s, hs, hw, hn⟩ : ∃ s, Machine.exec (step .little)
      (init [packetChunk, [7]] DataStream.fresh) threeCopies = some s ∧
      s.proxy.written = [packetChunk, packetChunk] ∧ s.delivered = 3 := ⟨_, rfl, rfl, rfl⟩
  obtain ⟨-, -, hdata, -⟩ := first_chunk_once .little packetChunk [[7]] DataStream.fresh ⟨rfl, rfl,
    rfl⟩ rfl _ s hs
  obtain ⟨-, hkept, hwritten, hone⟩ := hdata (by decide +kernel)
  obtain ⟨w, ws, hws⟩ := List.exists_cons_of_ne_nil (hwritten.mpr ⟨by omega, by decide +kernel⟩)
  have hlen : s.receiver.writes.length = 1 := by
    rw [(hone w (by rw [hws]; exact List.mem_cons_self)).1]
    rfl
  exact ⟨s, hs, hw, hlen, by omega⟩

end Conversation

end FortyTwoHundred.Srtp
