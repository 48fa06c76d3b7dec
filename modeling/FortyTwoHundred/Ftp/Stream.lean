import FortyTwoHundred.Ftp.Session

/-!
# Stream — what the server child writes

`StreamInv`: the packets the child has accepted are the packets of chunks `0, 1, 2, …` of the
client's file, so that the bytes it has written are a beginning of the file.  A step keeps this if
the `DATA` datagram it delivers, when it carries the expected number, is the expected packet
(`Fresh`); the 16-bit numbers give that as long as no packet of another cycle of numbers is
delivered.
-/

namespace FortyTwoHundred.Ftp

open Chunk

/-- The child is in its closing loop, or has returned `0`. -/
def Child.Closing (c : Child) : Prop :=
  (∃ t, c.pc = .finackTop t) ∨ (∃ t, c.pc = .finackRecv t) ∨ c.pc = .done (.returned .ok)

/-- **The closing loop**: the child stays in it or returns `0`, and does nothing to the file. -/
theorem Child.Closing.atomic {origin : Addr} {c d : Child} {i : ChildIn} {effs : List Effect}
    (hc : c.Closing) (ha : Atomic origin c i d effs) :
    d.Closing ∧ ∀ disk, effs.foldl Effect.onDisk disk = disk := by
  have not_poll : ∀ {startTime}, c.pc ≠ .poll startTime := by
    rintro startTime hpc
    simp [Closing, hpc] at hc
  cases ha with
  | settled ht hd =>
    cases ht with
    | @finack t ok again now hpc htime =>
      refine ⟨Or.inr (Or.inl ⟨t, rfl⟩), fun disk => ?_⟩
      cases ok <;> rfl
    | finackTimeout hpc htime => exact ⟨Or.inr (Or.inr rfl), fun disk => rfl⟩
    | @finackRecv t now temp beyond r hpc =>
      refine ⟨?_, fun disk => rfl⟩
      rcases (c.finackStep_frame origin t temp r).1 with hp | hp
      · exact Or.inr (Or.inr hp)
      · exact Or.inl ⟨t, hp⟩
    | _ => simp [Closing, *] at hc
  | noAck hpc => simp [Closing, hpc] at hc
  | timeout hpc => exact absurd hpc not_poll
  | incomplete hpc => exact absurd hpc not_poll
  | accept hpc => exact absurd hpc not_poll
  | excess hpc => exact absurd hpc not_poll

/-- The child has ended in its excess-data branch. -/
def Child.Excess (c : Child) : Prop := c.pc = .done (.exited .badRequest) ∧ c.filesize < c.read

namespace Session

/-- What the child knows and has on disk at each point. -/
def Phase (U : Upload) (disk : Option Bytes) (output : Bytes) (c : Child) : Prop :=
  match c.pc with
  | .start =>
    c.buffer = overlay ((requestPacket U.name U.content.length).take packetSize)
      (List.replicate packetSize 0) ∧
      c.accepted = []
  | .access => (∀ v, scanSize c.sizeText = some v → v = U.content.length) ∧ c.accepted = []
  | .fopen => c.filesize = U.content.length ∧ c.accepted = []
  | .deny cmd status => status ≠ .ok ∧ cmd ≠ cmdFinAck ∧ c.accepted = []
  | .ackRequest _ | .poll _ => c.filesize = U.content.length ∧ disk = some output
  | .finackTop _ | .finackRecv _ | .done (.returned .ok) => disk = some U.content
  | .done (.exited .badRequest) => c.filesize = U.content.length
  | _ => True

structure ChildInv (U : Upload) (disk : Option Bytes) (output : Bytes) (c : Child) : Prop where
  settled : c.Settled
  accepted : c.accepted = (List.range c.accepted.length).map (dataPacket U.content)
  expected : c.expectedSequence = UInt16.ofNat (c.accepted.length + 1)
  read : c.read = (min (payloadSize * c.accepted.length) U.content.length : ℕ)
  written : output = U.content.take (payloadSize * c.accepted.length)
  phase : Phase U disk output c

/-- A reply of the child: `FINACK` only once it is in its closing loop. -/
def Reply (s : Session) (d : Bytes) : Prop :=
  (d = finAckPacket ∧ ∃ c, s.child = some c ∧ c.Closing) ∨
    ∃ cmd q, cmd ≠ cmdFinAck ∧ d = createPacket cmd q 0 []

structure StreamInv (U : Upload) (s : Session) : Prop where
  child : ∀ c, s.child = some c → ChildInv U s.disk s.output c
  fresh : s.child = none → s.output = []
  replies : ∀ d ∈ s.toClient, s.Reply d

/-- A `DATA` datagram that the child handles, and that carries the expected number, is the expected
packet. -/
def Due (U : Upload) (c : Child) : ChildIn → Prop
  | .poll now _ _ (.got _ d) =>
    ∀ startTime, c.pc = .poll startTime → now - startTime < 6 → command d = cmdData →
      getSeqNum d = c.expectedSequence → d = dataPacket U.content c.accepted.length
  | _ => True

def Fresh (U : Upload) (s : Session) : SessionEv → Prop
  | .child i => ∀ c, s.child = some c → Due U c i
  | _ => True

section Steps

variable {U : Upload} {disk : Option Bytes} {output : Bytes} {c : Child}

theorem ChildInv.output_length (h : ChildInv U disk output c) : (output.length : ℤ) = c.read := by
  rw [h.written, h.read, List.length_take]

theorem ChildInv.not_excess (h : ChildInv U disk output c) : ¬ c.Excess := by
  rintro ⟨hpc, hover⟩
  have hfs : c.filesize = U.content.length := by simpa only [Phase, hpc] using h.phase
  rw [hfs, h.read] at hover
  omega

/-- A step that touches neither the stream nor the file. -/
theorem ChildInv.move {d : Child} {disk' : Option Bytes} (h : ChildInv U disk output c)
    (ha : d.accepted = c.accepted) (he : d.expectedSequence = c.expectedSequence)
    (hr : d.read = c.read) (hs : d.Settled) (hp : Phase U disk' output d) :
    ChildInv U disk' output d := by
  refine ⟨hs, ?_, ?_, ?_, ?_, hp⟩
  · rw [ha]; exact h.accepted
  · rw [ha, he]; exact h.expected
  · rw [ha, hr]; exact h.read
  · rw [ha]; exact h.written

/-- Acceptance of the expected packet. -/
theorem ChildInv.accept {d : Child} {disk' : Option Bytes} {temp : Bytes}
    (h : ChildInv U disk output c)
    (hd : d = { c with buffer := overlay (dataPacket U.content c.accepted.length) temp })
    {pc : ChildPc} (hs : Child.Settled { d.accept with pc := pc })
    (hp : Phase U disk' (output ++ chunk payloadSize U.content c.accepted.length)
      { d.accept with pc := pc }) :
    ChildInv U disk' (output ++ chunk payloadSize U.content c.accepted.length)
    { d.accept with pc := pc } := by
  have hpk := isPacket_dataPacket U.content c.accepted.length
  have hacc : d.accept.accepted = c.accepted ++ [dataPacket U.content c.accepted.length] := by
    rw [hd]
    simp only [Child.accept, hpk.packetOf_overlay]
  have hlen : d.accept.accepted.length = c.accepted.length + 1 := by rw [hacc]; simp
  refine ⟨hs, ?_, ?_, ?_, ?_, hp⟩
  · dsimp only
    rw [hlen, hacc, List.range_succ, List.map_append, ← h.accepted]
    rfl
  · dsimp only
    rw [hlen, SeqNum.ofNat_succ, ← h.expected, hd]
    rfl
  · dsimp only
    rw [hlen, ← min_add_getLen, hd]
    simp only [Child.accept, hpk.getLen_overlay, h.read]
    push_cast
    rfl
  · dsimp only
    rw [hlen, h.written, take_append_chunk]

/-- The request as the child parses it. -/
theorem ChildInv.parse (h : ChildInv U disk output c) (hpc : c.pc = .start) (ok : Bool) :
    ChildInv U disk output (c.parse ok) := by
  obtain ⟨hbuf, hacc⟩ : _ ∧ _ := by simpa only [Phase, hpc] using h.phase
  obtain ⟨hr, he, ha⟩ := c.parse_frame ok
  refine h.move ha he hr (c.parse_settled ok) ?_
  have htext : cstr (c.buffer.drop headerSize) = requestText U.name U.content.length := by
    rw [hbuf]
    exact Child.cstr_requestPacket U.nul U.fits
  unfold Child.parse
  split_ifs
  · trivial
  · exact ⟨by simp, by simp [cmdBadReq, cmdFinAck], hacc⟩
  · cases hreq : parseRequest (c.buffer.drop headerSize) with
    | none => exact ⟨by simp, by simp [cmdBadReq, cmdFinAck], hacc⟩
    | some req => exact ⟨fun v hv => (scanSize_requestText htext U.small.le hreq hv).2, hacc⟩

theorem ChildInv.check (h : ChildInv U disk output c) (hpc : c.pc = .access) (found : Bool) :
    ChildInv U disk output (c.check found) := by
  obtain ⟨hsize, hacc⟩ : _ ∧ _ := by simpa only [Phase, hpc] using h.phase
  obtain ⟨hr, he, ha⟩ := c.check_frame found
  refine h.move ha he hr (c.check_settled found) ?_
  rw [Child.check]
  split_ifs
  · exact ⟨by simp, by simp [cmdExists, cmdFinAck], hacc⟩
  · cases hv : scanSize c.sizeText with
    | none => trivial
    | some v =>
      dsimp only
      split_ifs
      · trivial
      · exact ⟨hsize v hv, hacc⟩

/-- Where the child answers a `FIN`, the whole file is on disk. -/
theorem ChildInv.complete (h : ChildInv U disk output c) (hf : c.filesize = U.content.length)
    (hr : c.read = c.filesize) : output = U.content := by
  have h1 := h.read
  rw [hr, hf, Nat.cast_inj] at h1
  rw [h.written]
  exact List.take_of_length_le (by omega)

/-- Effects that append nothing. -/
theorem ChildInv.quiet {effs : List Effect} {disk' : Option Bytes} (h : ChildInv U disk' output c)
    (hdisk : effs.foldl Effect.onDisk disk = disk') (happ : effs.flatMap Effect.appended = []) :
    ChildInv U (effs.foldl Effect.onDisk disk) (output ++ effs.flatMap Effect.appended) c := by
  rw [hdisk, happ, List.append_nil]
  exact h

/-- A transition that leaves no local call pending does not write. -/
theorem ChildInv.trans {origin : Addr} {i : ChildIn} {d : Child} {effs : List Effect}
    (h : ChildInv U disk output c) (ht : Child.Trans origin c i d effs) (hd : d.Settled) :
    ChildInv U (effs.foldl Effect.onDisk disk) (output ++ effs.flatMap Effect.appended) d := by
  have hph := h.phase
  cases ht with
  | start hpc => exact (h.parse hpc _).quiet rfl rfl
  | access hpc => exact (h.check hpc _).quiet rfl rfl
  | create hpc =>
    simp only [Phase, hpc] at hph
    have ho : output = [] := by rw [h.written, hph.2]; rfl
    refine ChildInv.quiet ?_ rfl rfl
    exact h.move rfl rfl rfl hd ⟨hph.1, by rw [ho]; rfl⟩
  | noCreate hpc =>
    simp only [Phase, hpc] at hph
    refine ChildInv.quiet ?_ rfl rfl
    exact h.move rfl rfl rfl hd ⟨by simp, by simp [cmdExists, cmdFinAck], hph.2⟩
  | @denied cmd status again now hpc =>
    simp only [Phase, hpc] at hph
    refine ChildInv.quiet (h.move rfl rfl rfl hd ?_) rfl rfl
    cases status with
    | ok => exact absurd rfl hph.1
    | _ => trivial
  | notDenied hpc => exact ChildInv.quiet (h.move rfl rfl rfl hd trivial) rfl rfl
  | noAck hpc => exact absurd rfl (hd.2 _)
  | ackAgain hpc htime => exact h.quiet rfl rfl
  | ack hpc =>
    simp only [Phase, hpc] at hph
    exact ChildInv.quiet (h.move rfl rfl rfl hd hph) rfl rfl
  | idle hpc htime hr =>
    simp only [Phase, hpc] at hph
    refine ChildInv.quiet (h.move rfl rfl rfl hd ?_) rfl rfl
    simp only [Phase, hpc]
    exact hph
  | timeout hpc htime => exact absurd rfl (hd.2 _)
  | datagram hpc htime hr =>
    simp only [Phase, hpc] at hph
    simp only [Child.handle] at hd ⊢
    split_ifs at hd ⊢ with hcmd hseq hfin hread
    · exact ChildInv.quiet (h.move rfl rfl rfl hd hph) rfl rfl
    · exact absurd rfl (hd.1 _)
    · exact absurd rfl (hd.2 _)
    · refine ChildInv.quiet ?_ rfl rfl
      refine h.move rfl rfl rfl hd ?_
      simp only [Phase, List.foldl_nil]
      rw [hph.2, h.complete hph.1 (not_not.mp hread)]
    · exact ChildInv.quiet (h.move rfl rfl rfl hd hph) rfl rfl
  | fwrite hpc hn => exact absurd hpc (h.settled.1 _)
  | unlink hpc => exact absurd hpc (h.settled.2 _)
  | @finack t ok again now hpc htime =>
    simp only [Phase, hpc] at hph
    cases ok with
    | false => exact ChildInv.quiet (h.move rfl rfl rfl hd hph) rfl rfl
    | true => exact ChildInv.quiet (h.move rfl rfl rfl hd hph) rfl rfl
  | finackTimeout hpc htime =>
    simp only [Phase, hpc] at hph
    exact ChildInv.quiet (h.move rfl rfl rfl hd hph) rfl rfl
  | @finackRecv t now temp beyond r hpc =>
    simp only [Phase, hpc] at hph
    obtain ⟨hp, hr, he, ha, -⟩ := c.finackStep_frame origin t temp r
    refine ChildInv.quiet (h.move ha he hr hd ?_) rfl rfl
    rcases hp with hp | hp
    · simp only [Phase, hp]; exact hph
    · simp only [Phase, hp]; exact hph

/-- The datagram a poll handles, and what it leaves in the buffer. -/
theorem received {net : List Bytes} {r : Recv} (temp : Bytes) (hnet : ∀ d ∈ net, IsPacket d)
    (hin : r.inNet net = true) (hr : 0 < r.ret) :
    ∃ src d, r = .got src d ∧ d ∈ net ∧ IsPacket d ∧ overlay r.stored temp = overlay d temp := by
  cases r with
  | got src d =>
    have hd : d ∈ net := by simpa [Recv.inNet] using hin
    exact ⟨src, d, rfl, hd, hnet d hd, by rw [Recv.stored, (hnet d hd).take_packetSize]⟩
  | fail errno => simp [Recv.ret] at hr

/-- An accepted packet that was due. -/
theorem Due.eq {net : List Bytes} {startTime now : ℤ} {temp : Bytes} {beyond : ℕ → Byte}
    {r : Recv} {d : Child} (hdue : Due U c (.poll now temp beyond r)) (hnet : ∀ d ∈ net, IsPacket d)
    (hin : r.inNet net = true) (hpc : c.pc = .poll startTime) (htime : now - startTime < 6)
    (hr : 0 < r.ret) (hd : d = { c with buffer := overlay r.stored temp })
    (hcmd : command d.buffer = cmdData) (hseq : getSeqNum d.buffer = d.expectedSequence) :
    d = { c with buffer := overlay (dataPacket U.content c.accepted.length) temp } := by
  obtain ⟨src, m, rfl, -, hpk, hbuf⟩ := received temp hnet hin hr
  rw [hbuf] at hd
  rw [hd] at hcmd hseq
  dsimp only at hcmd hseq
  rw [hpk.command_overlay] at hcmd
  rw [hpk.getSeqNum_overlay] at hseq
  rw [hd, hdue startTime hpc htime hcmd hseq]

/-- **One step of the child** on a network whose `DATA` datagrams are due when they carry the
expected number. -/
theorem ChildInv.atomic {origin : Addr} {net : List Bytes} {i : ChildIn} {d : Child}
    {effs : List Effect} (h : ChildInv U disk output c) (hdue : Due U c i)
    (hnet : ∀ d ∈ net, IsPacket d)
    (hin : ∀ now temp beyond r, i = .poll now temp beyond r → r.inNet net = true)
    (ha : Child.Atomic origin c i d effs) :
    ChildInv U (effs.foldl Effect.onDisk disk) (output ++ effs.flatMap Effect.appended) d := by
  have hph := h.phase
  cases ha with
  | settled ht hd => exact h.trans ht hd
  | noAck hpc =>
    refine ChildInv.quiet ?_ rfl rfl
    exact h.move rfl rfl rfl (.of_done rfl) trivial
  | timeout hpc htime =>
    refine ChildInv.quiet ?_ rfl rfl
    exact h.move rfl rfl rfl (.of_done rfl) trivial
  | incomplete hpc htime hr hd hcmd hn =>
    subst hd
    simp only [Phase, hpc] at hph
    refine ChildInv.quiet ?_ rfl rfl
    exact h.move rfl rfl rfl (.of_done rfl) hph.1
  | @accept startTime now temp beyond r d hpc htime hr hd hcmd hseq hfit =>
    simp only [Phase, hpc] at hph
    have hd' := hdue.eq hnet (hin _ _ _ _ rfl) hpc htime hr hd hcmd hseq
    have hpay : peek d.buffer beyond headerSize (getLen d.buffer).toNat =
        chunk payloadSize U.content c.accepted.length := by
      rw [hd', ← payload_dataPacket]
      exact (isPacket_dataPacket _ _).peek_overlay _ _
    simp only [List.foldl_cons, List.foldl_nil, Effect.onDisk, List.flatMap_cons, Effect.appended,
      List.flatMap_nil,
      List.append_nil, List.nil_append, hpay]
    refine h.accept hd' ⟨fun bs => by simp, fun st => by simp⟩ ⟨?_, ?_⟩
    · rw [hd']
      exact hph.1
    · rw [hph.2]
      rfl
  | @excess startTime now temp beyond r d hpc htime hr hd hcmd hseq hover =>
    -- the packet that is due does not go past the end of the file
    exfalso
    simp only [Phase, hpc] at hph
    have hd' := hdue.eq hnet (hin _ _ _ _ rfl) hpc htime hr hd hcmd hseq
    have hlen : d.accept.read = (min (payloadSize * (c.accepted.length + 1)) U.content.length :
        ℕ) := by
      rw [← min_add_getLen, hd']
      simp only [Child.accept, (isPacket_dataPacket _ _).getLen_overlay, h.read]
      push_cast
      rfl
    have hfs : d.filesize = U.content.length := by rw [hd']; exact hph.1
    rw [hlen, hfs] at hover
    omega

/-- What the child sends: `FINACK` from its closing loop only. -/
theorem ChildInv.sent {origin : Addr} {i : ChildIn} {d : Child} {effs : List Effect}
    (h : ChildInv U disk output c) (ha : Child.Atomic origin c i d effs) {m : Bytes}
    (hm : Effect.send m ∈ effs) : (m = finAckPacket ∧ d.Closing) ∨ ∃ cmd q, cmd ≠ cmdFinAck ∧
    m = createPacket cmd q 0 [] := by
  have hack : ∀ q, ∃ cmd q', cmd ≠ cmdFinAck ∧ ackPacket q = createPacket cmd q' 0 [] :=
    fun q => ⟨cmdAck, q, by decide, rfl⟩
  cases ha with
  | settled ht hd =>
    rcases ht.sent hm with ⟨cmd, status, hpc, rfl⟩ | ⟨q, rfl⟩ | ⟨rfl, hpc⟩
    · have hph : status ≠ .ok ∧ cmd ≠ cmdFinAck ∧ c.accepted = [] := by simpa only [Phase,
        hpc] using h.phase
      exact Or.inr ⟨cmd, 0, hph.2.1, rfl⟩
    · exact Or.inr (hack q)
    · exact Or.inl ⟨rfl, Or.inr (Or.inl hpc)⟩
  | accept hpc htime hr hd hcmd hseq hfit =>
    obtain rfl : m = ackPacket _ := by simpa using hm
    exact Or.inr (hack _)
  | excess hpc htime hr hd hcmd hseq hover =>
    obtain rfl : m = ackPacket _ := by simpa using hm
    exact Or.inr (hack _)
  | _ => simp at hm

end Steps

section StreamInv

variable {U : Upload} {s t : Session} {wanted origin : Addr}

theorem childStep_inv {c : Child} (hc : s.child = some c) (hset : c.Settled) {i : ChildIn}
    (hs : s.childStep origin i = some t) : ∃ d effs, Child.Atomic origin c i d effs ∧
    s.allows i = true ∧
      t = { s with
        child := some d
        disk := effs.foldl Effect.onDisk s.disk
        output := s.output ++ effs.flatMap Effect.appended
        toClient := s.toClient ++ effs.filterMap Effect.sent } := by
  rw [childStep, hc, Option.bind_some] at hs
  split_ifs at hs with hallow
  obtain ⟨⟨d, effs⟩, ha, rfl⟩ := Option.map_eq_some_iff.mp hs
  exact ⟨d, effs, Child.atomic_inv hset ha, hallow, rfl⟩

theorem inNet_of_allows {i : ChildIn} (h : s.allows i = true) :
    ∀ now temp beyond r, i = .poll now temp beyond r → r.inNet s.toChild = true := by
  rintro now temp beyond r rfl
  exact h

/-- The client's steps do not touch the child. -/
theorem clientStep_frame {i : ClientIn} (hs : s.clientStep wanted i = some t) :
    t.child = s.child ∧ t.disk = s.disk ∧ t.output = s.output ∧ t.toClient = s.toClient := by
  obtain ⟨p, -, rfl⟩ := Option.map_eq_some_iff.mp hs
  split_ifs <;> exact ⟨rfl, rfl, rfl, rfl⟩

theorem StreamInv.of_eq (h : StreamInv U s) (hc : t.child = s.child) (hd : t.disk = s.disk)
    (ho : t.output = s.output) (hn : t.toClient = s.toClient) : StreamInv U t := by
  refine ⟨?_, ?_, ?_⟩
  · rw [hc, hd, ho]; exact h.child
  · rw [hc, ho]; exact h.fresh
  · intro d hd
    rw [hn] at hd
    have := h.replies d hd
    rwa [Reply, hc]

theorem StreamInv.childStep (h : StreamInv U s) (hnet : NetInv U s) {i : ChildIn}
    (hf : Fresh U s (.child i)) (hs : s.childStep origin i = some t) : StreamInv U t := by
  obtain ⟨c, hc, -⟩ := Option.bind_eq_some_iff.mp hs
  have hci := h.child c hc
  obtain ⟨d, effs, ha, hallow, rfl⟩ := childStep_inv hc hci.settled hs
  refine ⟨?_, fun hn => by simp at hn, ?_⟩
  · rintro d' hd'
    obtain rfl := Option.some.inj hd'
    exact hci.atomic (hf c hc) (fun m hm => hnet.isPacket hm) (inNet_of_allows hallow) ha
  · intro m hm
    rcases List.mem_append.mp hm with hm | hm
    · -- an older reply: a child in its closing loop stays there
      rcases h.replies m hm with ⟨rfl, c', hc', hcl⟩ | hother
      · obtain rfl : c = c' := Option.some.inj (hc.symm.trans hc')
        exact Or.inl ⟨rfl, d, rfl, (hcl.atomic ha).1⟩
      · exact Or.inr hother
    · obtain ⟨e, he, hem⟩ := List.mem_filterMap.mp hm
      cases e with
      | send m' =>
        obtain rfl : m' = m := by simpa [Effect.sent] using hem
        rcases hci.sent ha he with ⟨rfl, hcl⟩ | hother
        · exact Or.inl ⟨rfl, d, rfl, hcl⟩
        · exact Or.inr hother
      | _ => simp [Effect.sent] at hem

theorem ChildInv.init (U : Upload) (disk : Option Bytes) :
    ChildInv U disk [] (Child.init (requestPacket U.name U.content.length)) := by
  refine ⟨.of_early trivial, rfl, rfl, ?_, ?_, rfl, rfl⟩
  · simp [Child.init]
  · simp [Child.init]

/-- **Every step that delivers only due packets keeps the stream.** -/
theorem StreamInv.step (h : StreamInv U s) (hnet : NetInv U s) {e : SessionEv} (hf : Fresh U s e)
    (hs : s.step wanted origin e = some t) : StreamInv U t := by
  cases e with
  | clientSend now =>
    obtain ⟨h1, h2, h3, h4⟩ := clientStep_frame hs
    exact h.of_eq h1 h2 h3 h4
  | clientRecv temp r now =>
    simp only [Session.step] at hs
    split_ifs at hs
    obtain ⟨h1, h2, h3, h4⟩ := clientStep_frame hs
    exact h.of_eq h1 h2 h3 h4
  | fork d =>
    simp only [Session.step] at hs
    split_ifs at hs with hd
    obtain rfl := Option.some.inj hs
    have hnone : s.child = none := Option.isNone_iff_eq_none.mp hd.1
    refine ⟨?_, fun hn => by simp at hn, ?_⟩
    · intro c hc
      obtain rfl := Option.some.inj hc
      rw [hnet.requests d hd.2, h.fresh hnone]
      exact ChildInv.init U s.disk
    · intro m hm
      rcases h.replies m hm with ⟨-, c, hc, -⟩ | hother
      · rw [hnone] at hc
        cases hc
      · exact Or.inr hother
  | child i => exact h.childStep hnet hf hs

theorem StreamInv.init (U : Upload) (disk : Option Bytes) (now : ℤ) :
    StreamInv U (init U disk now) :=
  ⟨by simp [Session.init], fun _ => rfl, by simp [Session.init]⟩

end StreamInv

end Session

end FortyTwoHundred.Ftp
