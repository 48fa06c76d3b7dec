import FortyTwoHundred.Ftp.Stream

/-!
# Wrap — files whose packets do not use a number twice

A file of `chunkCount` chunks takes at most `chunkCount + 49` packets, padding included.  If these
are at most `2 ^ 16`, every number is used once.  The child still expects number `1` again after `2
^ 16` packets: where `chunkCount + 49 = 2 ^ 16`, a late copy of the first packet is accepted once
more when the whole window has been, padding included.  The copy goes past the end of the file, so
the child ends in its excess-data branch and unlinks the file.  Below that bound the stream is safe
on every network (`stream_safe`); `first_packet_again` is a run at the bound.
-/

namespace FortyTwoHundred.Ftp

open Chunk

namespace Session

/-- The child has accepted no more packets than the client has created. -/
def Bounded (s : Session) : Prop := ∀ c, s.child = some c → c.accepted.length ≤ s.client.created

/-- The child has ended in its excess-data branch, after `2 ^ 16` packets. -/
def Wrapped (U : Upload) (s : Session) : Prop :=
  ∃ c, s.child = some c ∧ c.Excess ∧ c.expectedSequence = UInt16.ofNat (c.accepted.length + 1) ∧
    chunkCount U.content + 49 = 65536

section Safety

variable {U : Upload} {s t : Session} {wanted origin : Addr}

/-- A `DATA` datagram with the expected number is the expected packet, or the first one after `2 ^
16` packets. -/
theorem data_index (hcount : chunkCount U.content + 49 ≤ 65536) (hnet : NetInv U s)
    (hst : StreamInv U s) (hb : s.Bounded) {c : Child} (hc : s.child = some c) {d : Bytes}
    (hd : d ∈ s.toChild) (hcmd : command d = cmdData) (hseq : getSeqNum d = c.expectedSequence) :
    (d = dataPacket U.content c.accepted.length ∧ c.accepted.length < s.client.created) ∨
      (d = dataPacket U.content 0 ∧ c.accepted.length = 65536 ∧
        chunkCount U.content + 49 = 65536) := by
  obtain ⟨i, hi, rfl⟩ := hnet.data hd hcmd
  have hle := hb c hc
  have hpad := hnet.window.padding
  have hw : windowSize = 50 := rfl
  rw [getSeqNum_dataPacket, (hst.child c hc).expected, SeqNum.ofNat_eq_iff] at hseq
  by_cases hlt : c.accepted.length < 65536
  · obtain rfl : i = c.accepted.length := by omega
    exact Or.inl ⟨rfl, hi⟩
  · obtain rfl : i = 0 := by omega
    exact Or.inr ⟨rfl, by omega, by omega⟩

theorem not_fresh_iff {i : ChildIn} (hf : ¬ Fresh U s (.child i)) :
    ∃ c startTime now temp beyond src d, s.child = some c ∧ i = .poll now temp beyond (.got src d) ∧
      c.pc = .poll startTime ∧ now - startTime < 6 ∧ command d = cmdData ∧
      getSeqNum d = c.expectedSequence ∧
      d ≠ dataPacket U.content c.accepted.length := by
  simp only [Fresh, not_forall] at hf
  obtain ⟨c, hc, hdue⟩ := hf
  cases i with
  | poll now temp beyond r =>
    cases r with
    | got src d =>
      simp only [Due, not_forall] at hdue
      obtain ⟨startTime, hpc, ht, hcmd, hseq, hne⟩ := hdue
      exact ⟨c, startTime, now, temp, beyond, src, d, hc, rfl, hpc, ht, hcmd, hseq, hne⟩
    | fail errno => exact absurd trivial hdue
  | _ => exact absurd trivial hdue

/-- The first packet once more: the child ends in its excess-data branch. -/
theorem wrapped_of_not_fresh (hcount : chunkCount U.content + 49 ≤ 65536) (hnet : NetInv U s)
    (hst : StreamInv U s) (hb : s.Bounded) {i : ChildIn} (hf : ¬ Fresh U s (.child i))
    (hs : s.childStep origin i = some t) :
    t.Wrapped U ∧ t.output = s.output ++ chunk payloadSize U.content 0 ∧ t.disk = none := by
  obtain ⟨c, startTime, now, temp, beyond, src, d, hc, rfl, hpc, htime, hcmd, hseq, hne⟩ :=
    not_fresh_iff hf
  have hci := hst.child c hc
  obtain ⟨hfs, hdisk⟩ : c.filesize = U.content.length ∧ s.disk = some s.output := by
    simpa only [Phase, hpc] using hci.phase
  rw [childStep, hc, Option.bind_some] at hs
  split_ifs at hs with hallow
  have hd : d ∈ s.toChild := by simpa [allows, Recv.inNet] using hallow
  rcases data_index hcount hnet hst hb hc hd hcmd hseq with ⟨h1, -⟩ | ⟨rfl, hacc, hmax⟩
  · exact absurd h1 hne
  · -- all of the file is written, and the first packet is not empty
    have hp : payloadSize = 2043 := rfl
    have hpos : 0 < U.content.length := by
      have : 0 < chunkCount U.content := by omega
      rw [lt_chunkCount_iff] at this
      omega
    have hlast : U.content.length ≤ payloadSize * c.accepted.length := by
      have : ¬ c.accepted.length < chunkCount U.content := by omega
      rw [lt_chunkCount_iff] at this
      omega
    have hread : c.read = U.content.length := by
      rw [hci.read, min_eq_right hlast]
    have hlen : 0 < (getLen (dataPacket U.content 0)).toNat := by
      rw [getLen_dataPacket, length_chunk]
      omega
    have hover : c.filesize < c.read + (getLen (dataPacket U.content 0)).toNat := by omega
    rw [Child.atomic_data hpc htime (isPacket_dataPacket _ _) hcmd hseq] at hs
    dsimp only at hs
    rw [if_pos hover, Option.map_some, Option.some.injEq] at hs
    subst hs
    refine ⟨⟨_, rfl, ⟨rfl, ?_⟩, ?_, hmax⟩, ?_, rfl⟩
    · simp only [Child.finish, Child.accept, (isPacket_dataPacket _ _).getLen_overlay]
      exact hover
    · simp only [Child.finish, Child.accept, List.length_append, List.length_singleton]
      rw [hci.expected, SeqNum.ofNat_succ (c.accepted.length + 1)]
    · simp only [List.cons_append, List.nil_append, List.flatMap_cons, Effect.appended,
        List.flatMap_nil,
        List.append_nil, payload_dataPacket]

theorem accepted_of_atomic {c d : Child} {i : ChildIn} {effs : List Effect}
    (h : Child.Atomic origin c i d effs) (hne : d.accepted ≠ c.accepted) :
    ∃ startTime now temp beyond r, i = .poll now temp beyond r ∧ c.pc = .poll startTime ∧
    now - startTime < 6 ∧
      0 < r.ret ∧ command (overlay r.stored temp) = cmdData ∧
      getSeqNum (overlay r.stored temp) = c.expectedSequence ∧ d.accepted.length =
        c.accepted.length + 1 := by
  cases h with
  | settled ht hd =>
    exfalso
    cases ht with
    | start hpc => exact hne (c.parse_frame _).2.2
    | access hpc => exact hne (c.check_frame _).2.2
    | datagram hpc htime hr =>
      simp only [Child.handle] at hne hd
      split_ifs at hne hd
      · exact hne rfl
      · exact hd.1 _ rfl
      · exact hne rfl
      · exact hne rfl
      · exact hne rfl
    | @fwrite pending n now hpc hn =>
      rw [Child.afterWrite] at hne
      split_ifs at hne <;> exact hne rfl
    | finackRecv hpc => exact hne (c.finackStep_frame _ _ _ _).2.2.2.1
    | _ => exact hne rfl
  | noAck hpc => exact absurd rfl hne
  | timeout hpc htime => exact absurd rfl hne
  | incomplete hpc htime hr hd hcmd hn => subst hd; exact absurd rfl hne
  | accept hpc htime hr hd hcmd hseq hfit =>
    subst hd
    exact ⟨_, _, _, _, _, rfl, hpc, htime, hr, hcmd, hseq, by simp [Child.accept]⟩
  | excess hpc htime hr hd hcmd hseq hover =>
    subst hd
    exact ⟨_, _, _, _, _, rfl, hpc, htime, hr, hcmd, hseq, by simp [Child.accept, Child.finish]⟩

/-- The bound after a step that delivers only due packets. -/
theorem Bounded.step (hcount : chunkCount U.content + 49 ≤ 65536) (hnet : NetInv U s)
    (hst : StreamInv U s) (hb : s.Bounded) {e : SessionEv} (hf : Fresh U s e)
    (hs : s.step wanted origin e = some t) : t.Bounded := by
  have hclient : ∀ {i : ClientIn}, s.clientStep wanted i = some t → t.Bounded := by
    intro i hs c hc
    obtain ⟨hchild, -, -, -⟩ := clientStep_frame hs
    obtain ⟨⟨d, out⟩, hstep, rfl⟩ := Option.map_eq_some_iff.mp hs
    have hle := (hb c (hchild ▸ hc)).trans (Client.created_le_of_step hstep)
    split_ifs <;> exact hle
  cases e with
  | clientSend now => exact hclient hs
  | clientRecv temp r now =>
    simp only [Session.step] at hs
    split_ifs at hs
    exact hclient hs
  | fork d =>
    simp only [Session.step] at hs
    split_ifs at hs
    obtain rfl := Option.some.inj hs
    intro c hc
    obtain rfl := Option.some.inj hc
    exact Nat.zero_le _
  | child i =>
    obtain ⟨c, hc, -⟩ := Option.bind_eq_some_iff.mp hs
    obtain ⟨d, effs, ha, hallow, rfl⟩ := childStep_inv hc (hst.child c hc).settled hs
    intro d' hd'
    obtain rfl := Option.some.inj hd'
    by_cases hacc : d.accepted = c.accepted
    · rw [hacc]; exact hb c hc
    · obtain ⟨startTime, now, temp, beyond, r, rfl, hpc, htime, hr, hcmd, hseq, hlen⟩ :=
        accepted_of_atomic ha hacc
      obtain ⟨src, m, rfl, hm, hpk, hbuf⟩ := received temp (fun m hm => hnet.isPacket hm) hallow hr
      rw [hbuf, hpk.command_overlay] at hcmd
      rw [hbuf, hpk.getSeqNum_overlay] at hseq
      rw [hlen]
      rcases data_index hcount hnet hst hb hc hm hcmd hseq with ⟨-, hlt⟩ | ⟨h0, hmax, hpad⟩
      · exact hlt
      · -- the first packet has data, the packet after `2 ^ 16` has none
        exfalso
        have hdue := hf c hc startTime hpc htime hcmd hseq
        have hp : payloadSize = 2043 := rfl
        have h1 : (chunk payloadSize U.content 0).length =
            (chunk payloadSize U.content c.accepted.length).length := by
          rw [← getLen_dataPacket, ← getLen_dataPacket, ← h0, ← hdue]
        have h2 : 0 < chunkCount U.content := by omega
        have h3 : ¬ c.accepted.length < chunkCount U.content := by omega
        rw [lt_chunkCount_iff] at h2 h3
        rw [length_chunk, length_chunk] at h1
        omega

theorem Wrapped.step (h : s.Wrapped U) {e : SessionEv} (hs : s.step wanted origin e = some t) :
    t.Wrapped U := by
  obtain ⟨c, hc, hex, hrest⟩ := h
  cases e with
  | clientSend now => exact ⟨c, (clientStep_frame hs).1.trans hc, hex, hrest⟩
  | clientRecv temp r now =>
    simp only [Session.step] at hs
    split_ifs at hs
    exact ⟨c, (clientStep_frame hs).1.trans hc, hex, hrest⟩
  | fork d => simp [Session.step, hc] at hs
  | child i => simp [Session.step, childStep, hc, Child.atomic, Child.step, hex.1] at hs

/-- The stream is as it should be, or the numbers have come round. -/
def SafeInv (U : Upload) (s : Session) :
    Prop := NetInv U s ∧ (StreamInv U s ∧ s.Bounded ∨ s.Wrapped U)

theorem SafeInv.step (hcount : chunkCount U.content + 49 ≤ 65536) (h : SafeInv U s) {e : SessionEv}
    (hs : s.step wanted origin e = some t) : SafeInv U t := by
  obtain ⟨hnet, ⟨hst, hb⟩ | hw⟩ := h
  · refine ⟨hnet.step hs, ?_⟩
    by_cases hf : Fresh U s e
    · exact Or.inl ⟨hst.step hnet hf hs, hb.step hcount hnet hst hf hs⟩
    · cases e with
      | child i => exact Or.inr (wrapped_of_not_fresh hcount hnet hst hb hf hs).1
      | _ => exact absurd trivial hf
  · exact ⟨hnet.step hs, Or.inr (hw.step hs)⟩

theorem SafeInv.init (U : Upload) (disk : Option Bytes) (now : ℤ) : SafeInv U (init U disk now) :=
  ⟨NetInv.init U disk now, Or.inl ⟨StreamInv.init U disk now,
    fun c hc => by simp [Session.init] at hc⟩⟩

end Safety

/-- **The child's stream on an arbitrary network.**  For a file whose packets do not use a number
twice, in every state the session reaches: the expected number is one more than the number of
accepted packets; unless the child has ended in its excess-data branch, the bytes written are the
first `read` bytes of the file; a child that has returned `0` has written the file; and the
excess-data branch is not reached if `2 ^ 16` packets are not reached. -/
theorem stream_safe (U : Upload) (hcount : chunkCount U.content + 49 ≤ 65536) (wanted origin : Addr)
    (disk : Option Bytes) (now : ℤ) (es : List SessionEv) (s : Session) (c : Child)
    (h : Machine.exec (step wanted origin) (init U disk now) es = some s) (hc : s.child = some c) :
    c.expectedSequence = UInt16.ofNat (1 + c.accepted.length) ∧
    (¬ c.Excess → s.output = U.content.take c.read.toNat ∧ (s.output.length : ℤ) = c.read) ∧
    (c.pc = .done (.returned .ok) → s.disk = some U.content) ∧
    (chunkCount U.content + 49 < 65536 → ¬ c.Excess) := by
  have hinv : SafeInv U s :=
    Machine.exec_invariant (I := SafeInv U) (fun u e v hu hs => hu.step hcount hs)
      (SafeInv.init U disk now) h
  rw [Nat.add_comm 1]
  obtain ⟨-, ⟨hst, -⟩ | ⟨c', hc', hex, he, hmax⟩⟩ := hinv
  · have hci := hst.child c hc
    refine ⟨hci.expected, fun _ => ⟨?_, hci.output_length⟩, ?_, fun _ => hci.not_excess⟩
    · rw [hci.read, Int.toNat_natCast, ← List.take_eq_take_min]
      exact hci.written
    · intro hpc
      simpa only [Phase, hpc] using hci.phase
  · obtain rfl : c = c' := Option.some.inj (hc.symm.trans hc')
    refine ⟨he, fun hne => absurd hex hne, ?_, fun hlt => absurd hmax (by omega)⟩
    intro hpc
    rw [hex.1] at hpc
    cases hpc

theorem stream_safe_oneByteTransfer : ∃ s c,
    Machine.exec (step ⟨[]⟩ ⟨[]⟩) (init oneByte none 0) oneByteTransfer = some s ∧
    s.child = some c ∧ c.read = 1 ∧
    s.output = oneByte.content.take c.read.toNat := by
  obtain ⟨s, c, hs, hc, hread⟩ : ∃ s c,
      Machine.exec (step ⟨[]⟩ ⟨[]⟩) (init oneByte none 0) oneByteTransfer = some s ∧
      s.child = some c ∧ c.read = 1 :=
    ⟨_, _, rfl, rfl, rfl⟩
  have hcount : chunkCount oneByte.content + 49 < 65536 := by decide
  obtain ⟨-, hwritten, -, hshort⟩ := stream_safe oneByte hcount.le ⟨[]⟩
    ⟨[]⟩ none 0 oneByteTransfer s c hs hc
  exact ⟨s, c, hs, hc, hread, (hwritten (hshort hcount)).1⟩

/-! ## A run that comes round

The client and the child in lockstep: in round `k` the client sends its window, the child accepts
packet `k` and the client receives the acknowledgement. -/

def deliver (U : Upload) (k : ℕ) : SessionEv :=
  .child (.poll 0 [] (fun _ => 0) (.got ⟨[]⟩ (dataPacket U.content k)))

def handshake (U : Upload) : List SessionEv :=
  [.clientSend 0, .fork (requestPacket U.name U.content.length), .child (.setup true),
    .child (.access false),
    .child (.fopen true 0), .child (.send true false 0), .clientRecv [] (.got ⟨[]⟩ (ackPacket 1)) 0]

def round (U : Upload) (k : ℕ) : List SessionEv :=
  [.clientSend 0, deliver U k, .clientRecv [] (.got ⟨[]⟩ (ackPacket (UInt16.ofNat (k + 2)))) 0,
    .clientRecv [] (.fail .again) 0]

/-- The client at `pc` with `f` packets removed and `n` created, all of them sent, and the child
with `a` accepted. -/
structure At (U : Upload) (pc : ClientPc) (f n a : ℕ) (s : Session) : Prop where
  safe : SafeInv U s
  pc : s.client.pc = pc
  removed : s.client.removed.length = f
  created : s.client.created = n
  lastACK : s.client.lastACK = 0
  sent : ∀ i < n, dataPacket U.content i ∈ s.toChild
  child : ∃ c, s.child = some c ∧ c.pc = .poll 0 ∧ c.accepted.length = a

section Lockstep

variable {U : Upload} {s : Session} {wanted origin : Addr} {pc : ClientPc} {f n a : ℕ}

theorem At.stream (h : At U pc f n a s) : NetInv U s ∧ StreamInv U s ∧ s.Bounded := by
  obtain ⟨c, hc, hpc, -⟩ := h.child
  obtain ⟨hnet, ⟨hst, hb⟩ | ⟨c', hc', hex, -⟩⟩ := h.safe
  · exact ⟨hnet, hst, hb⟩
  · obtain rfl : c = c' := Option.some.inj (hc.symm.trans hc')
    have := hex.1
    rw [hpc] at this
    cases this

/-- A pass fills the window and sends it. -/
theorem At.pass (hcount : chunkCount U.content + 49 ≤ 65536) (h : At U .pass f n a s)
    (hf : f < chunkCount U.content) :
    ∃ t, s.step wanted origin (.clientSend 0) = some t ∧ At U .drain f (f + 50) a t := by
  obtain ⟨hnet, -, -⟩ := h.stream
  obtain ⟨hrem, hwr, hsz, hlast, -⟩ := Client.fill_frame readFile s.client
  obtain ⟨hfill, -⟩ := hnet.window.fill h.pc
  have hw : windowSize = 50 := rfl
  have hlen : (Client.fill readFile s.client).packets.length = 50 := by
    have h1 := hfill.window
    have h2 := Client.fill_full readFile s.client
    have h3 : s.client.written < s.client.size := by
      rw [lt_chunkCount_iff] at hf
      rw [hnet.window.written, hnet.window.size, h.removed]
      omega
    rw [hwr, hsz] at h2
    omega
  have hcr : (Client.fill readFile s.client).created = f + 50 := by
    rw [Client.created, hrem, h.removed, hlen]
  have hstep : s.step wanted origin (.clientSend 0) =
      some { s with
        client := { Client.fill readFile s.client with pc := .drain }
        toChild := s.toChild ++ (Client.fill readFile s.client).packets } := by
    simp only [Session.step, clientStep, Client.step, h.pc, Client.passStep, hfill.sendAll_packets,
      hlast, h.lastACK]
    simp [ackTimeout]
  refine ⟨_, hstep, h.safe.step hcount hstep, rfl, ?_, hcr, ?_, ?_, h.child⟩
  · rw [← h.removed]; exact congrArg List.length hrem
  · rw [← h.lastACK]; exact hlast
  · intro i hi
    refine List.mem_append.mpr ?_
    by_cases hlt : i < f
    · have hle : f ≤ n := by rw [← h.removed, ← h.created, Client.created]; omega
      exact Or.inl (h.sent i (by omega))
    · right
      rw [hfill.packets_eq, hrem, h.removed, hlen]
      exact List.mem_map_of_mem (List.mem_range'_1.mpr ⟨by omega, hi⟩)

/-- The child accepts the next packet. -/
theorem At.deliver (hcount : chunkCount U.content + 49 ≤ 65536) (h : At U pc f n a s) (ha : a < n) :
    ∃ t, s.step wanted origin (deliver U a) = some t ∧ At U pc f n (a + 1) t ∧
      ackPacket (UInt16.ofNat (a + 2)) ∈ t.toClient := by
  obtain ⟨-, hst, -⟩ := h.stream
  obtain ⟨c, hc, hpc, hacc⟩ := h.child
  have hci := hst.child c hc
  have hfs : c.filesize = U.content.length := (by simpa only [Phase, hpc] using hci.phase : _ ∧ _).1
  have hfit : ¬ c.filesize < c.read + (getLen (dataPacket U.content a)).toNat := by
    have := min_add_getLen U.content a
    rw [hfs, hci.read, hacc]
    omega
  have hseq : getSeqNum (dataPacket U.content a) = c.expectedSequence := by
    rw [getSeqNum_dataPacket, hci.expected, hacc]
  have hallow : s.allows (.poll 0 [] (fun _ => 0) (.got ⟨[]⟩ (dataPacket U.content a))) = true := by
    simpa [allows, Recv.inNet] using h.sent a ha
  obtain ⟨t, hs, hclient, hnet, hchild, hreply⟩ : ∃ t, s.step wanted origin (Session.deliver U a) =
      some t ∧
      t.client = s.client ∧ t.toChild = s.toChild ∧
      (∃ d, t.child = some d ∧ d.pc = .poll 0 ∧ d.accepted.length = a + 1) ∧
      ackPacket (c.expectedSequence + 1) ∈ t.toClient := by
    simp only [Session.step, Session.deliver, childStep, hc, Option.bind_some, hallow, if_true]
    rw [Child.atomic_data hpc (by omega) (isPacket_dataPacket _ _) (command_dataPacket _ _) hseq]
    dsimp only
    rw [if_neg hfit]
    exact ⟨_, rfl, rfl, rfl, ⟨_, rfl, rfl, by simp [Child.accept, hacc]⟩, by simp [Effect.sent]⟩
  refine ⟨t, hs, ⟨h.safe.step hcount hs, ?_, ?_, ?_, ?_, ?_, hchild⟩, ?_⟩
  · rw [hclient]; exact h.pc
  · rw [hclient]; exact h.removed
  · rw [hclient]; exact h.created
  · rw [hclient]; exact h.lastACK
  · rw [hnet]; exact h.sent
  · rw [SeqNum.ofNat_succ, ← hacc, ← hci.expected]
    exact hreply

/-- The client receives the acknowledgement of its first packet. -/
theorem At.acked (hcount : chunkCount U.content + 49 ≤ 65536) (h : At U .drain f n a s)
    (hn : f + 1 < n) (hm : ackPacket (UInt16.ofNat (f + 2)) ∈ s.toClient) :
    ∃ t, s.step wanted origin (.clientRecv [] (.got ⟨[]⟩ (ackPacket (UInt16.ofNat (f + 2)))) 0) =
      some t ∧
      At U .drain (f + 1) n a t := by
  obtain ⟨hnet, -, -⟩ := h.stream
  set q := UInt16.ofNat (f + 2) with hq
  -- the list is packets `f`, `f + 1`, …; the second one has the acknowledged number
  have hpk : s.client.packets = dataPacket U.content f :: dataPacket U.content (f + 1) ::
      (List.range' (f + 2) (n - f - 2)).map (dataPacket U.content) := by
    have hlen : s.client.packets.length = (n - f - 2) + 1 + 1 := by
      have h1 := h.created
      have h2 := h.removed
      rw [Client.created] at h1
      omega
    rw [hnet.window.packets_eq, h.removed, hlen, List.range'_succ, List.range'_succ]
    rfl
  have hne : (getSeqNum (dataPacket U.content f) != q) = true := by
    rw [bne_iff_ne, getSeqNum_dataPacket, hq]
    intro heq
    have := SeqNum.ofNat_inj_of_close (by omega) (by omega) heq
    omega
  have heq : (getSeqNum (dataPacket U.content (f + 1)) != q) = false := by
    rw [getSeqNum_dataPacket, hq, bne_self_eq_false]
  have hack : IsPacket (ackPacket q) := .createPacket (Nat.zero_le _) (Nat.zero_le _)
  obtain ⟨c, hc⟩ : ∃ c : Client Bytes,
      c = { s.client with read := 5, buffer := overlay (ackPacket q) [] } := ⟨_, rfl⟩
  have hstep : s.step wanted origin (.clientRecv [] (.got ⟨[]⟩ (ackPacket q)) 0) =
      some { s with client := Client.release q 0 c } := by
    have hin : (Recv.got ⟨[]⟩ (ackPacket q)).inNet s.toClient = true := by
        simpa [Recv.inNet] using hm
    have hret : (Recv.got ⟨[]⟩ (ackPacket q)).ret = 5 := by
      rw [Recv.ret, hack.take_packetSize]
      rfl
    simp only [Session.step, hin, if_true, clientStep, Client.step, h.pc, readOnlyFrom_eq,
      Client.handle, hret,
      Recv.stored, hack.take_packetSize, hack.command_overlay, hack.getSeqNum_overlay, hc]
    simp [ackPacket, cmdAck]
  obtain ⟨-, hrem⟩ := Client.release_packets q 0 c
  have hlast : (Client.release q 0 c).lastACK = 0 :=
    Client.release_induct (I := fun d => d.lastACK = 0) (fun _ _ _ _ _ _ => rfl)
      (by rw [hc]; exact h.lastACK)
  refine ⟨_, hstep, h.safe.step hcount hstep, ?_, ?_, ?_, hlast, h.sent, h.child⟩
  · show (Client.release q 0 c).pc = _
    rw [(Client.release_frame q 0 c).1, hc]
    exact h.pc
  · show (Client.release q 0 c).removed.length = _
    rw [hrem, hc]
    dsimp only
    rw [hpk, List.takeWhile_cons, hne, List.takeWhile_cons, heq, List.length_append, h.removed]
    rfl
  · show (Client.release q 0 c).created = _
    rw [Client.release_created, hc]
    exact h.created

/-- Nothing more to receive: the next pass. -/
theorem At.again (hcount : chunkCount U.content + 49 ≤ 65536) (h : At U .drain f n a s)
    (hf : f < chunkCount U.content) :
    ∃ t, s.step wanted origin (.clientRecv [] (.fail .again) 0) = some t ∧ At U .pass f n a t := by
  obtain ⟨hnet, -, -⟩ := h.stream
  have hne : s.client.written ≠ s.client.size := by
    rw [lt_chunkCount_iff] at hf
    rw [hnet.window.written, hnet.window.size, h.removed]
    omega
  have hstep : s.step wanted origin (.clientRecv [] (.fail .again) 0) =
      some { s with client := { s.client with read := -1, buffer := [], pc := .pass } } := by
    simp only [Session.step, Recv.inNet, if_true, clientStep, Client.step, h.pc, readOnlyFrom_eq,
      Client.handle,
      Client.loopTop]
    simp [Recv.ret, Recv.again, Recv.stored, overlay, hne]
  exact ⟨_, hstep, h.safe.step hcount hstep, rfl, h.removed, h.created, h.lastACK, h.sent, h.child⟩

/-- **One round.** -/
theorem At.round (hcount : chunkCount U.content + 49 ≤ 65536) {k : ℕ} (h : At U .pass k n k s)
    (hk : k + 1 < chunkCount U.content) :
    ∃ t, Machine.exec (step wanted origin) s (round U k) = some t ∧ At U .pass (k + 1) (k + 50)
    (k + 1) t := by
  obtain ⟨s₁, hs₁, h₁⟩ := h.pass hcount (by omega)
  obtain ⟨s₂, hs₂, h₂, hm⟩ := h₁.deliver hcount (by omega)
  obtain ⟨s₃, hs₃, h₃⟩ := h₂.acked hcount (by omega) hm
  obtain ⟨s₄, hs₄, h₄⟩ := h₃.again hcount hk
  refine ⟨s₄, ?_, h₄⟩
  rw [Session.round, Machine.exec_cons, hs₁, Option.bind_some, Machine.exec_cons, hs₂,
    Option.bind_some,
    Machine.exec_cons, hs₃, Option.bind_some, Machine.exec_cons, hs₄, Option.bind_some,
    Machine.exec_nil]

theorem At.rounds (hcount : chunkCount U.content + 49 ≤ 65536) (h : At U .pass 0 n 0 s) {k : ℕ}
    (hk : k < chunkCount U.content) :
    ∃ t m, Machine.exec (step wanted origin) s ((List.range k).flatMap (Session.round U)) = some t ∧
      At U .pass k m k t := by
  induction k with
  | zero => exact ⟨s, n, rfl, h⟩
  | succ k ih =>
    obtain ⟨t, m, ht, hat⟩ := ih (by omega)
    obtain ⟨u, hu, hau⟩ := hat.round hcount hk
    refine ⟨u, k + 50, ?_, hau⟩
    rw [List.range_succ, List.flatMap_append, List.flatMap_singleton]
    exact Machine.exec_append.mpr ⟨t, ht, hu⟩

/-- The child accepts everything that has been sent. -/
theorem At.deliver_all (hcount : chunkCount U.content + 49 ≤ 65536) {k : ℕ} (h : At U pc f n a s)
    (hk : a + k ≤ n) : ∃ t, Machine.exec (step wanted origin) s
      ((List.range' a k).map (Session.deliver U)) = some t ∧
      At U pc f n (a + k) t := by
  induction k generalizing a s with
  | zero => exact ⟨s, rfl, h⟩
  | succ k ih =>
    obtain ⟨t, ht, hat, -⟩ := h.deliver hcount (by omega)
    obtain ⟨u, hu, hau⟩ := ih hat (by omega)
    refine ⟨u, ?_, by rw [Nat.add_right_comm] at hau; exact hau⟩
    rw [List.range'_succ, List.map_cons]
    exact Machine.exec_cons_some.mpr ⟨t, ht, hu⟩

/-- After `2 ^ 16` packets the first one is accepted again. -/
theorem At.first_again (hmax : chunkCount U.content + 49 = 65536) (ha : a = 65536)
    (h : At U pc f a a s) : ∃ t c, s.step wanted origin (Session.deliver U 0) = some t ∧
    t.child = some c ∧ c.Excess ∧
      t.output = U.content ++ chunk payloadSize U.content 0 ∧ t.disk = none := by
  obtain ⟨hnet, hst, hb⟩ := h.stream
  obtain ⟨c, hc, hpc, hacc⟩ := h.child
  have hci := hst.child c hc
  have hp : payloadSize = 2043 := rfl
  have h0 : 0 < chunkCount U.content := by omega
  have hend : ¬ a < chunkCount U.content := by omega
  rw [lt_chunkCount_iff] at h0 hend
  have hseq : getSeqNum (dataPacket U.content 0) = c.expectedSequence := by
    rw [getSeqNum_dataPacket, hci.expected, hacc, SeqNum.ofNat_eq_iff]
    omega
  have hallow : s.allows (.poll 0 [] (fun _ => 0) (.got ⟨[]⟩ (dataPacket U.content 0))) = true := by
    simpa [allows, Recv.inNet] using h.sent 0 (by omega)
  obtain ⟨t, hs⟩ : ∃ t, s.childStep origin (.poll 0 [] (fun _ => 0)
      (.got ⟨[]⟩ (dataPacket U.content 0))) = some t := by
    simp only [childStep, hc, Option.bind_some, hallow, if_true]
    rw [Child.atomic_data hpc (by omega) (isPacket_dataPacket _ _) (command_dataPacket _ _) hseq]
    dsimp only
    split_ifs
    · exact ⟨_, rfl⟩
    · exact ⟨_, rfl⟩
  have hf : ¬ Fresh U s (Session.deliver U 0) := by
    intro hf
    have heq := hf c hc 0 hpc (by omega) (command_dataPacket _ _) hseq
    have hlen := congrArg (fun d => (getLen d).toNat) heq
    rw [getLen_dataPacket, getLen_dataPacket, length_chunk, length_chunk, hacc] at hlen
    omega
  obtain ⟨⟨d, hd, hex, -⟩, hout, hdisk⟩ := wrapped_of_not_fresh hmax.le hnet hst hb hf hs
  refine ⟨t, d, hs, hd, hex, ?_, hdisk⟩
  rw [hout, hci.written, hacc, List.take_of_length_le (by omega)]

theorem child_parse (U : Upload) (hbar : bar ∉ U.name) (hslash : slash ∉ U.name) :
    (Child.init (requestPacket U.name U.content.length)).parse true =
      { Child.init (requestPacket U.name U.content.length) with
        pc := .access, filename := U.name, sizeText := showLong U.content.length } := by
  have hcmd : command (Child.init (requestPacket U.name U.content.length)).buffer = cmdWrq :=
    Child.command_init (isPacket_requestPacket U.fits).size
  have hreq : parseRequest ((Child.init (requestPacket U.name U.content.length)).buffer.drop
      headerSize) =
      some ⟨U.name, showLong U.content.length⟩ := by
    rw [parseRequest_requestText (Child.cstr_requestPacket U.nul U.fits) hbar,
      basename_of_notMem hslash]
  rw [Child.parse, hcmd, hreq]
  simp

/-- A step of the child that is followed by no local call. -/
theorem childStep_of_step {c d : Child} {i : ChildIn} (effs : List Effect) (hc : s.child = some c)
    (hallow : s.allows i = true) (hs : c.step origin i = some (d, effs)) (hd : d.Settled) :
    s.step wanted origin (.child i) = some { s with
      child := some d
      disk := effs.foldl Effect.onDisk s.disk
      output := s.output ++ effs.flatMap Effect.appended
      toClient := s.toClient ++ effs.filterMap Effect.sent } := by
  have hset : Child.settle origin i.clock 2 (d, effs) = some (d, effs) := Child.settle_settled hd
  simp only [Session.step, childStep, hc, Option.bind_some, hallow, if_true, Child.atomic, hs, hset,
    Option.map_some]

theorem recvReply_ack (src : Addr) (q : UInt16) (now : ℤ) (c : Client Bytes) :
    Client.recvReply (.got src (ackPacket q)) now c =
      Client.loopTop now { c with buffer := overlay (ackPacket q) c.buffer, lastACK := now } := by
  have hack : IsPacket (ackPacket q) := .createPacket (Nat.zero_le _) (Nat.zero_le _)
  have hret : (Recv.got src (ackPacket q)).ret = 5 := by
    rw [Recv.ret, hack.take_packetSize]
    rfl
  rw [Client.recvReply, hret]
  dsimp only
  rw [if_neg (by omega), if_neg (by omega), Client.reply, Recv.stored, hack.take_packetSize,
    hack.command_overlay,
    if_pos (show command (ackPacket q) = cmdAck from rfl)]

/-- The session while the client waits for the reply to its first request. -/
def opening (U : Upload) (child : Option Child) (disk : Option Bytes) (toClient : List Bytes) :
    Session :=
  { init U disk 0 with
    client := { (init U disk 0).client with pc := .reqRecv }
    child := child
    requests := [requestPacket U.name U.content.length]
    toClient := toClient }

/-- The request is accepted and acknowledged. -/
theorem at_handshake (hcount : chunkCount U.content + 49 ≤ 65536) (hbar : bar ∉ U.name)
    (hslash : slash ∉ U.name) (hne : U.content ≠ []) :
    ∃ t, Machine.exec (step wanted origin) (init U none 0) (handshake U) = some t ∧
    At U .pass 0 0 0 t := by
  have hpos : 0 < U.content.length := List.length_pos_iff.mpr hne
  have hs₁ : (init U none 0).step wanted origin (.clientSend 0) =
      some (opening U none none []) := by
    have hreq := sendPacket_requestPacket U.fits
    simp only [Session.step, clientStep, init, Client.init, Client.step, opening, hreq]
    rfl
  obtain ⟨c₀, hc₀⟩ : ∃ c, c = Child.init (requestPacket U.name U.content.length) := ⟨_, rfl⟩
  have hs₂ : (opening U none none []).step wanted origin
      (.fork (requestPacket U.name U.content.length)) =
      some (opening U (some c₀) none []) := by
    simp [Session.step, opening, init, hc₀]
  obtain ⟨c₁, hc₁⟩ : ∃ c : Child, c = { c₀ with
      pc := .access, filename := U.name, sizeText := showLong U.content.length } := ⟨_, rfl⟩
  have hs₃ : (opening U (some c₀) none []).step wanted origin (.child (.setup true)) =
      some (opening U (some c₁) none []) := by
    refine childStep_of_step [] rfl rfl ?_ ⟨fun bs => by simp [hc₁], fun st => by simp [hc₁]⟩
    rw [hc₁, hc₀, ← child_parse U hbar hslash]
    rfl
  obtain ⟨c₂, hc₂⟩ : ∃ c : Child, c = { c₁ with pc := .fopen, filesize := U.content.length } :=
    ⟨_, rfl⟩
  have hs₄ : (opening U (some c₁) none []).step wanted origin (.child (.access false)) =
      some (opening U (some c₂) none []) := by
    refine childStep_of_step [] rfl rfl ?_ ⟨fun bs => by simp [hc₂], fun st => by simp [hc₂]⟩
    have hv : scanSize c₁.sizeText = some (U.content.length : ℤ) := by
      rw [hc₁]
      exact scanSize_showLong U.small.le
    simp only [Child.step, show c₁.pc = .access by rw [hc₁], Child.check, hv]
    simp [hc₂]
  obtain ⟨c₃, hc₃⟩ : ∃ c : Child, c = { c₂ with pc := .ackRequest 0 } := ⟨_, rfl⟩
  have hs₅ : (opening U (some c₂) none []).step wanted origin (.child (.fopen true 0)) =
      some (opening U (some c₃) (some []) []) := by
    refine childStep_of_step [.create] rfl rfl ?_ ⟨fun bs => by simp [hc₃], fun st => by simp [hc₃]⟩
    simp [Child.step, show c₂.pc = .fopen by rw [hc₂], hc₃]
  obtain ⟨c₄, hc₄⟩ : ∃ c : Child, c = { c₃ with pc := .poll 0 } := ⟨_, rfl⟩
  have hs₆ : (opening U (some c₃) (some []) []).step wanted origin (.child (.send true false 0)) =
      some (opening U (some c₄) (some []) [ackPacket 1]) := by
    refine childStep_of_step [.send (ackPacket 1)] rfl rfl ?_
      ⟨fun bs => by simp [hc₄], fun st => by simp [hc₄]⟩
    simp [Child.step, show c₃.pc = .ackRequest 0 by rw [hc₃], hc₄]
  obtain ⟨t, hs₇, hpc, hrem, hcr, hlast, hnet, hchild⟩ :
    ∃ t, (opening U (some c₄) (some []) [ackPacket 1]).step wanted
      origin (.clientRecv [] (.got ⟨[]⟩ (ackPacket 1)) 0) = some t ∧ t.client.pc = .pass ∧
      t.client.removed = [] ∧
      t.client.created = 0 ∧ t.client.lastACK = 0 ∧ t.toChild = [] ∧ t.child = some c₄ := by
    have hin : (Recv.got ⟨[]⟩ (ackPacket 1)).inNet [ackPacket 1] = true := by simp [Recv.inNet]
    have hne' : (0 : ℤ) ≠ U.content.length := by omega
    simp only [Session.step, clientStep, opening, init, Client.init, Client.step, hin, if_true,
      recvReply_ack,
      Client.loopTop]
    rw [if_pos hne']
    exact ⟨_, rfl, rfl, rfl, rfl, rfl, rfl, rfl⟩
  have hexec : Machine.exec (step wanted origin) (init U none 0) (handshake U) = some t := by
    rw [handshake, Machine.exec_cons, hs₁, Option.bind_some, Machine.exec_cons, hs₂,
      Option.bind_some,
      Machine.exec_cons, hs₃, Option.bind_some, Machine.exec_cons, hs₄, Option.bind_some,
      Machine.exec_cons, hs₅, Option.bind_some, Machine.exec_cons, hs₆, Option.bind_some,
      Machine.exec_cons, hs₇, Option.bind_some, Machine.exec_nil]
  refine ⟨t, hexec, ?_, hpc, by rw [hrem]; rfl, hcr, hlast,
    fun i hi => absurd hi (Nat.not_lt_zero i),
    c₄, hchild, by rw [hc₄], by rw [hc₄, hc₃, hc₂, hc₁, hc₀]; rfl⟩
  exact Machine.exec_invariant (I := SafeInv U) (fun u e v hu hs => hu.step hcount hs)
    (SafeInv.init U none 0) hexec

end Lockstep

/-- A file of `65487` chunks of zeros. -/
def wrapFile : Upload where
  name := [97]
  content := List.replicate (2043 * 65487) 0
  nul := oneByte.nul
  fits := by rw [List.length_replicate]; decide
  small := by rw [List.length_replicate]; decide

/-- `65486` rounds, the last window, all of it accepted, and the first packet again. -/
def wrapRun : List SessionEv :=
  handshake wrapFile ++ ((List.range 65486).flatMap (round wrapFile) ++
    (.clientSend 0 :: ((List.range' 65486 50).map (deliver wrapFile) ++ [deliver wrapFile 0])))

/-- The child writes more than the file and unlinks it. -/
theorem first_packet_again : ∃ s c,
    chunkCount wrapFile.content + 49 = 65536 ∧
    Machine.exec (step ⟨[]⟩ ⟨[]⟩) (init wrapFile none 0) wrapRun = some s ∧ s.child = some c ∧
    s.output ≠ wrapFile.content.take c.read.toNat ∧ s.disk = none := by
  have hlen : wrapFile.content.length = 2043 * 65487 := List.length_replicate
  have hp : payloadSize = 2043 := rfl
  have hmax : chunkCount wrapFile.content = 65487 := by
    rw [chunkCount, hlen, hp]
  have hcount : chunkCount wrapFile.content + 49 ≤ 65536 := by omega
  have hne : wrapFile.content ≠ [] := by
    rw [← List.length_pos_iff, hlen]
    omega
  obtain ⟨s₁, hs₁, h₁⟩ := at_handshake (U := wrapFile) hcount (by decide) (by decide) hne
  obtain ⟨s₂, m, hs₂, h₂⟩ := h₁.rounds hcount (k := 65486) (by omega)
  obtain ⟨s₃, hs₃, h₃⟩ := h₂.pass hcount (by omega)
  obtain ⟨s₄, hs₄, h₄⟩ := h₃.deliver_all hcount (k := 50) (by omega)
  obtain ⟨s₅, c, hs₅, hc, hex, hout, hdisk⟩ := h₄.first_again (by omega) (by omega)
  refine ⟨s₅, c, by omega, ?_, hc, ?_, hdisk⟩
  · refine Machine.exec_append.mpr ⟨s₁, hs₁, Machine.exec_append.mpr ⟨s₂, hs₂, ?_⟩⟩
    refine Machine.exec_cons_some.mpr ⟨s₃, hs₃, Machine.exec_append.mpr ⟨s₄, hs₄, ?_⟩⟩
    exact Machine.exec_cons_some.mpr ⟨s₅, hs₅, rfl⟩
  · intro heq
    have h1 := congrArg List.length heq
    rw [hout, List.length_append, length_chunk, List.length_take, hlen, hp] at h1
    omega

end Session

end FortyTwoHundred.Ftp
