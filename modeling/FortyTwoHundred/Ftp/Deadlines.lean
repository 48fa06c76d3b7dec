import FortyTwoHundred.Lib.Timed
import FortyTwoHundred.Ftp.Server
import FortyTwoHundred.Ftp.Window

/-!
# Deadlines — how long the two programs can run

Every loop of `copy_file` that waits for a datagram looks at the clock.  The machines of this module
are the client and the child on one clock that does not go back.  How long a turn of a loop takes
is up to the system and to the other side: the client's receive loop goes on as long as datagrams
arrive.  `Prompt g` says that a turn takes at most `g` seconds.

The client ends within a time that depends on the number of chunks of its file only, whatever it
receives (`client_deadline`): the limit starts again only when a packet is taken off the list, and
there are not many packets.  The child has no such limit, since every datagram starts it again; but
it ends when it hears nothing (`child_deadline`).
-/

namespace FortyTwoHundred.Ftp

/-! ## The client -/

def ClientIn.time : ClientIn → ℤ
  | .send _ now => now
  | .recv _ _ now => now

/-- The client and the time at which the turn of its loop began; every turn begins with a `send`. -/
structure Turn where
  client : Client Bytes
  begun : ℤ

namespace Turn

def step (wanted : Addr) (s : Turn) (i : ClientIn) : Option Turn :=
  (s.client.step readFile wanted i).map fun p =>
    { client := p.1
      begun := match i with
        | .send _ now => now
        | .recv _ _ _ => s.begun }

/-- The client with its clock. -/
abbrev clocked (wanted : Addr) : ℤ × Turn → ClientIn → Option (ℤ × Turn) :=
    Machine.timed ClientIn.time (step wanted)

/-- A turn, and what is between two turns, takes at most `g` seconds. -/
def Prompt (g : ℤ) (s : ℤ × Turn) (i : ClientIn) : Prop := i.time ≤ s.2.begun + g

/-- The client of a program that starts at `start`. -/
def init (content name : Bytes) (start : ℤ) :
    ℤ × Turn := ⟨start, Client.init content content.length name start, start⟩

/-- The latest `lastACK` after `n` packets have been taken off the list. -/
def latestAck (start g : ℤ) (n : ℕ) : ℤ := start + 6 + 2 * g + n * (ackTimeout + g)

/-- What the clock can be at each point of the client: `now` is its last reading, and the turn began
at `begun`. -/
def Limit (start g now begun : ℤ) (c : Client Bytes) : Prop :=
  match c.pc with
  | .reqSend => c.startTime = start ∧ now ≤ start + 6
  | .reqRecv => c.startTime = start ∧ begun ≤ start + 6 + g
  | .pass | .drain =>
    c.lastACK ≤ now ∧ begun ≤ c.lastACK + ackTimeout ∧
      c.lastACK ≤ latestAck start g c.removed.length
  | .finTop | .finRecv => begun ≤ c.lastACK + ackTimeout ∧
      c.lastACK ≤ latestAck start g (c.removed.length + 1)
  | .done _ => now ≤ latestAck start g (c.removed.length + 2)

structure OnTime (content : Bytes) (start g : ℤ) (s : ℤ × Turn) : Prop where
  window : Client.WindowInv content s.2.client
  begun : s.2.begun ≤ s.1
  clock : s.1 ≤ s.2.begun + g
  limit : Limit start g s.1 s.2.begun s.2.client

section Steps

variable {content : Bytes} {start g : ℤ} {s t : ℤ × Turn} {wanted : Addr}

theorem latestAck_succ (start g : ℤ) (n : ℕ) :
    latestAck start g (n + 1) = latestAck start g n + (ackTimeout + g) := by
  rw [latestAck, latestAck]
  push_cast
  ring

theorem latestAck_mono (hg : 0 ≤ g) {m n : ℕ} (h : m ≤ n) :
    latestAck start g m ≤ latestAck start g n := by
  have hpos : 0 ≤ ackTimeout + g := add_nonneg (by decide) hg
  rw [latestAck, latestAck]
  have hmul : (m : ℤ) * (ackTimeout + g) ≤ n * (ackTimeout + g) :=
    Int.mul_le_mul_of_nonneg_right (by exact_mod_cast h) hpos
  omega

/-- The release loop: `lastACK` is set only where a packet is taken off the list. -/
theorem release_lastACK (acked : UInt16) (now : ℤ) (c : Client Bytes) :
    (Client.release acked now c).removed = c.removed ∧
    (Client.release acked now c).lastACK = c.lastACK ∨
      c.removed.length < (Client.release acked now c).removed.length ∧
      (Client.release acked now c).lastACK = now := by
  refine Client.release_induct (I := fun d => d.removed = c.removed ∧ d.lastACK = c.lastACK ∨
    c.removed.length < d.removed.length ∧ d.lastACK = now) ?_ (Or.inl ⟨rfl, rfl⟩)
  intro d p ps hd _ _
  have hlen : (d.removeFront now p ps).removed.length = d.removed.length + 1 := by
      simp [Client.removeFront]
  refine Or.inr ⟨?_, rfl⟩
  rw [hlen]
  rcases hd with ⟨hr, -⟩ | ⟨hr, -⟩
  · rw [hr]
    exact Nat.lt_succ_self _
  · omega

theorem Limit.data {now begun : ℤ} {c : Client Bytes} (hpc : c.pc = .pass ∨ c.pc = .drain) :
    Limit start g now begun c ↔ c.lastACK ≤ now ∧ begun ≤ c.lastACK + ackTimeout ∧
      c.lastACK ≤ latestAck start g c.removed.length := by
  rcases hpc with hpc | hpc
  · simp only [Limit, hpc]
  · simp only [Limit, hpc]

theorem Limit.fin {now begun : ℤ} {c : Client Bytes} (hpc : c.pc = .finTop ∨ c.pc = .finRecv) :
    Limit start g now begun c ↔ begun ≤ c.lastACK + ackTimeout ∧
      c.lastACK ≤ latestAck start g (c.removed.length + 1) := by
  rcases hpc with hpc | hpc
  · simp only [Limit, hpc]
  · simp only [Limit, hpc]

/-- A client whose last acknowledgement is in time can end one timeout and one turn later. -/
theorem Limit.done {now begun : ℤ} {c d : Client Bytes} {e : Ending} (hpc : d.pc = .done e)
    (hrem : d.removed = c.removed) (hnow : now ≤ c.lastACK + ackTimeout + g)
    (hlimit : c.lastACK ≤ latestAck start g (c.removed.length + 1)) :
    Limit start g now begun d := by
  simp only [Limit, hpc, hrem]
  have h1 := latestAck_succ start g (c.removed.length + 1)
  have h2 : latestAck start g (c.removed.length + 2) =
      latestAck start g (c.removed.length + 1 + 1) := rfl
  omega

/-- The test of the data loop. -/
theorem Limit.loopTop {now begun clock : ℤ} {c : Client Bytes} (hle : clock ≤ now)
    (hprompt : now ≤ begun + g)
    (h : c.lastACK ≤ clock ∧ begun ≤ c.lastACK + ackTimeout ∧
      c.lastACK ≤ latestAck start g c.removed.length) :
    Limit start g now begun (Client.loopTop now c) := by
  obtain ⟨hack, hturn, hlimit⟩ := h
  have hA : (0 : ℤ) ≤ ackTimeout := by decide
  rw [Client.loopTop]
  split_ifs
  · exact ⟨hack.trans hle, hturn, hlimit⟩
  · refine (Limit.fin (Or.inl rfl)).mpr ⟨?_, ?_⟩
    · show begun ≤ now + ackTimeout
      omega
    · show now ≤ latestAck start g (c.removed.length + 1)
      rw [latestAck_succ]
      omega

theorem OnTime.nonneg (h : OnTime content start g s) : 0 ≤ g := by
  have := h.begun
  have := h.clock
  omega

theorem Limit.pass (hg : 0 ≤ g) {now begun clock : ℤ} {c : Client Bytes} {sendto : Bytes → Bool}
    (hle : clock ≤ now) (hprompt : now ≤ begun + g)
    (h : c.lastACK ≤ clock ∧ begun ≤ c.lastACK + ackTimeout ∧
      c.lastACK ≤ latestAck start g c.removed.length) :
    Limit start g now now (Client.passStep readFile sendto now c).1 := by
  obtain ⟨hack, hturn, hlimit⟩ := h
  obtain ⟨hrem, -, -, hlast, -⟩ := Client.fill_frame readFile c
  have hend := hlimit.trans (latestAck_mono hg (Nat.le_add_right _ 1))
  rw [Client.passStep]
  split_ifs with hfail hlate
  · exact .done (c := c) rfl hrem (by omega) hend
  · exact .done (c := c) rfl hrem (by omega) hend
  · rw [hlast] at hlate
    refine (Limit.data (Or.inr rfl)).mpr ?_
    simp only [hrem, hlast]
    exact ⟨hack.trans hle, by omega, hlimit⟩

theorem Limit.handle (hg : 0 ≤ g) {now begun clock : ℤ} {c : Client Bytes} (hpc : c.pc = .drain)
    {rr : ReadResult} (hle : clock ≤ now) (hprompt : now ≤ begun + g)
    (h : c.lastACK ≤ clock ∧ begun ≤ c.lastACK + ackTimeout ∧
      c.lastACK ≤ latestAck start g c.removed.length) :
    Limit start g now begun (Client.handle rr now c) := by
  have hend := h.2.2.trans (latestAck_mono hg (Nat.le_add_right _ 1))
  rw [Client.handle]
  dsimp only
  split_ifs with hagain hcmd hfin hmore
  · exact .loopTop hle hprompt h
  · -- an acknowledgement: `lastACK` is now, or as before
    generalize hd : { c with read := rr.ret, buffer := rr.buffer } = d
    have hdl : d.lastACK = c.lastACK ∧ d.removed = c.removed ∧ d.pc = .drain := by
      subst hd
      exact ⟨rfl, rfl, hpc⟩
    obtain ⟨hack, hturn, hlimit⟩ := h
    rw [Limit.data (Or.inr (by rw [(Client.release_frame _ _ _).1]; exact hdl.2.2))]
    rcases release_lastACK (getSeqNum rr.buffer) now d with ⟨hr, hl⟩ | ⟨hr, hl⟩
    · rw [hr, hl, hdl.1, hdl.2.1]
      exact ⟨hack.trans hle, hturn, hlimit⟩
    · have hA : (0 : ℤ) ≤ ackTimeout := by decide
      have h1 := latestAck_succ start g c.removed.length
      have h2 : latestAck start g (c.removed.length + 1) ≤
          latestAck start g (Client.release (getSeqNum rr.buffer) now d).removed.length :=
        latestAck_mono hg (by rw [hdl.2.1] at hr; omega)
      rw [hl]
      exact ⟨le_rfl, by omega, by omega⟩
  · exact .done (c := c) rfl rfl (by omega) hend
  · exact .loopTop hle hprompt h
  · exact (Limit.data (Or.inr hpc)).mpr ⟨h.1.trans hle, h.2⟩

/-- The end of the request. -/
theorem le_latestAck (hg : 0 ≤ g) {now : ℤ} (h : now ≤ start + 6 + 2 * g) (n : ℕ) :
    now ≤ latestAck start g n := by
  refine le_trans ?_ (latestAck_mono hg (Nat.zero_le n))
  simpa only [latestAck, Nat.cast_zero, zero_mul, add_zero] using h

/-- The reply to the request, or another request. -/
theorem Limit.recvReply (hg : 0 ≤ g) {now begun : ℤ} {c : Client Bytes} {r : Recv}
    (hprompt : now ≤ begun + g) (hturn : begun ≤ now) (hs : c.startTime = start)
    (hbegun : begun ≤ start + 6 + g) : Limit start g now begun (Client.recvReply r now c) := by
  have hnow : now ≤ start + 6 + 2 * g := by omega
  have hA : (0 : ℤ) ≤ ackTimeout := by decide
  have htop : ∀ buffer : Bytes,
      Limit start g now begun (Client.loopTop now { c with buffer := buffer, lastACK := now }) :=
    fun buffer => .loopTop le_rfl hprompt ⟨le_rfl, by dsimp only; omega, le_latestAck hg hnow _⟩
  have hdone : ∀ (buffer : Bytes) (e : Ending),
      Limit start g now begun (Client.finish e { c with buffer := buffer }) :=
    fun _ _ => le_latestAck hg hnow _
  rw [Client.recvReply]
  dsimp only
  split_ifs with hagain hnone
  · refine ⟨hs, ?_⟩
    have := hagain.2
    omega
  · exact hdone _ _
  · rw [Client.reply]
    split_ifs
    · exact htop _
    · exact hdone _ _
    · exact hdone _ _
    · exact htop _

theorem Limit.handleFin {now begun : ℤ} {c : Client Bytes} {rr : ReadResult} (hpc : c.pc = .finRecv)
    (hprompt : now ≤ begun + g)
    (h : begun ≤ c.lastACK + ackTimeout ∧ c.lastACK ≤ latestAck start g (c.removed.length + 1)) :
    Limit start g now begun (Client.handleFin rr c) := by
  rw [Client.handleFin]
  dsimp only
  split_ifs
  · exact (Limit.fin (Or.inr hpc)).mpr h
  · exact .done (c := c) rfl rfl (by omega) h.2
  · exact (Limit.fin (Or.inl rfl)).mpr h

/-- **Every step of a prompt client is in time.** -/
theorem OnTime.step (h : OnTime content start g s) {i : ClientIn} (hprompt : Prompt g s i)
    (hs : clocked wanted s i = some t) : OnTime content start g t := by
  obtain ⟨hle, hstep, hnow⟩ := Machine.timed_eq_some.mp hs
  obtain ⟨⟨c, out⟩, hc, ht⟩ := Option.map_eq_some_iff.mp hstep
  have hw := h.window.step hc
  have hg := h.nonneg
  obtain ⟨clock, turn⟩ := t
  obtain ⟨now, client, begun⟩ := s
  dsimp only at ht hnow hle hc
  subst ht hnow
  have hlimit := h.limit
  have hbegun := h.begun
  dsimp only [Prompt] at hprompt hlimit hbegun hw
  cases Client.trans_of_step hc with
  | @request sendto now hpc hsend =>
    simp only [Limit, hpc] at hlimit
    refine ⟨hw, le_rfl, le_add_of_nonneg_right hg, hlimit.1, ?_⟩
    dsimp only [ClientIn.time] at hprompt ⊢
    omega
  | @noRequest sendto now hpc =>
    simp only [Limit, hpc] at hlimit
    refine ⟨hw, le_rfl, le_add_of_nonneg_right hg, ?_⟩
    dsimp only [ClientIn.time] at hprompt ⊢
    exact le_latestAck hg (by omega) _
  | reply hpc =>
    simp only [Limit, hpc] at hlimit
    exact ⟨hw, hbegun.trans hle, hprompt, .recvReply hg hprompt (hbegun.trans hle)
      hlimit.1 hlimit.2⟩
  | pass hpc =>
    exact ⟨hw, le_rfl, le_add_of_nonneg_right hg,
      .pass hg hle hprompt ((Limit.data (Or.inl hpc)).mp hlimit)⟩
  | drain hpc =>
    exact ⟨hw, hbegun.trans hle, hprompt,
      .handle hg hpc hle hprompt ((Limit.data (Or.inr hpc)).mp hlimit)⟩
  | @fin sendto now hpc htime =>
    obtain ⟨hturn, hlast⟩ := (Limit.fin (Or.inl hpc)).mp hlimit
    refine ⟨hw, le_rfl, le_add_of_nonneg_right hg, (Limit.fin (Or.inr rfl)).mpr ⟨?_, hlast⟩⟩
    dsimp only
    omega
  | @finTimeout sendto now hpc htime =>
    obtain ⟨hturn, hlast⟩ := (Limit.fin (Or.inl hpc)).mp hlimit
    dsimp only [ClientIn.time] at hprompt ⊢
    exact ⟨hw, le_rfl, le_add_of_nonneg_right hg, .done (c := client) rfl rfl (by omega) hlast⟩
  | finRecv hpc =>
    exact ⟨hw, hbegun.trans hle, hprompt,
      .handleFin hpc hprompt ((Limit.fin (Or.inr hpc)).mp hlimit)⟩

theorem OnTime.init (content name : Bytes) (start : ℤ) (hg : 0 ≤ g) :
    OnTime content start g (init content name start) :=
  ⟨.init content name start, le_rfl, le_add_of_nonneg_right hg, rfl, by simp [Turn.init]⟩

/-- What is in time is before the last limit. -/
theorem OnTime.clock_le (h : OnTime content start g s) :
    s.1 ≤ latestAck start g (chunkCount content + (windowSize + 1)) := by
  have hg := h.nonneg
  have hA : (0 : ℤ) ≤ ackTimeout := by decide
  have hclock := h.clock
  have hlimit := h.limit
  have hpad := h.window.padding
  have hwin : windowSize = 50 := rfl
  rw [Client.created, hwin] at hpad
  rw [hwin]
  have hmono : latestAck start g (s.2.client.removed.length + 2) ≤ latestAck start g
      (chunkCount content + (50 + 1)) :=
    latestAck_mono hg (by omega)
  refine le_trans ?_ hmono
  have h1 := latestAck_succ start g s.2.client.removed.length
  have h2 : latestAck start g (s.2.client.removed.length + 2) =
      latestAck start g (s.2.client.removed.length + 1) + (ackTimeout + g) :=
      latestAck_succ start g _
  cases hpc : s.2.client.pc with
  | reqSend | reqRecv =>
    simp only [Limit, hpc] at hlimit
    exact le_latestAck hg (by omega) _
  | pass | drain | finTop | finRecv =>
    simp only [Limit, hpc] at hlimit
    omega
  | done e =>
    simp only [Limit, hpc] at hlimit
    exact hlimit

end Steps

/-- A client that has not ended makes a call next, whatever the time is. -/
theorem can_go_on (wanted : Addr) (s : ℤ × Turn) (hpc : ∀ e, s.2.client.pc ≠ .done e) (now : ℤ)
    (hle : s.1 ≤ now) : ∃ i t, i.time = now ∧ clocked wanted s i = some t := by
  have hsend : ∀ (sendto : Bytes → Bool) p, s.2.client.step readFile wanted (.send sendto now) =
      some p →
      ∃ i t, i.time = now ∧ clocked wanted s i = some t := fun sendto p hp =>
    ⟨.send sendto now, (now, ⟨p.1, now⟩), rfl,
      Machine.timed_eq_some.mpr ⟨hle, by rw [step, hp]; rfl, rfl⟩⟩
  have hrecv : ∀ p, s.2.client.step readFile wanted (.recv [] (.fail .again) now) = some p →
      ∃ i t, i.time = now ∧ clocked wanted s i = some t := fun p hp =>
    ⟨.recv [] (.fail .again) now, (now, ⟨p.1, s.2.begun⟩), rfl,
      Machine.timed_eq_some.mpr ⟨hle, by rw [step, hp]; rfl, rfl⟩⟩
  cases hp : s.2.client.pc with
  | reqSend =>
    exact hsend (fun _ => false) (s.2.client.finish (.exited .runtimeError), [])
      (by simp [Client.step, hp])
  | reqRecv =>
    exact hrecv (s.2.client.recvReply (.fail .again) now, []) (by simp only [Client.step, hp])
  | pass =>
    exact hsend (fun _ => true) (Client.passStep readFile (fun _ => true) now s.2.client)
      (by simp only [Client.step, hp])
  | drain =>
    exact hrecv (s.2.client.handle (readOnlyFrom wanted s.2.client.buffer [] (.fail .again)) now,
      [])
      (by simp only [Client.step, hp])
  | finTop =>
    by_cases ht : now - s.2.client.lastACK < ackTimeout
    · exact hsend (fun _ => false) ({ s.2.client with pc := .finRecv }, [])
        (by simp [Client.step, hp, ht])
    · exact hsend (fun _ => false) (s.2.client.finish (.returned .ok), [])
        (by simp [Client.step, hp, ht])
  | finRecv =>
    exact hrecv (s.2.client.handleFin (readOnlyFrom wanted s.2.client.buffer [] (.fail .again)), [])
      (by simp only [Client.step, hp])
  | done e => exact absurd hp (hpc e)

/-- **The client ends.**  For every file that does not change, every turn taking at most `g`
seconds, and whatever the client receives: no run of the client goes on for longer than a time that
grows with the number of chunks of the file; and a run that has not come to the end can go on at
any time. -/
theorem client_deadline (content name : Bytes) (wanted : Addr) (start g : ℤ) (hg : 0 ≤ g)
    (is : List ClientIn) (s : ℤ × Turn)
    (hprompt : Machine.Meets (clocked wanted) (Prompt g) (init content name start) is)
    (h : Machine.exec (clocked wanted) (init content name start) is = some s) :
    s.1 ≤ start + 6 + 2 * g + (chunkCount content + windowSize + 1 : ℕ) * (ackTimeout + g) ∧
      ((∃ e, s.2.client.pc = .done e) ∨ ∀ now, s.1 ≤ now → ∃ i t, i.time = now ∧
        clocked wanted s i = some t) := by
  refine ⟨?_, ?_⟩
  · exact (Machine.exec_invariant_of_meets (I := OnTime content start g)
      (fun _ _ _ hI hp hs => hI.step hp hs)
      (.init content name start hg) hprompt h).clock_le
  · by_cases hdone : ∃ e, s.2.client.pc = .done e
    · exact Or.inl hdone
    · exact Or.inr (can_go_on wanted s fun e he => hdone ⟨e, he⟩)

/-- A client that has one byte to send: its request and, after a second pass, its byte are
acknowledged, and so is its second `FIN`. -/
def answered : List ClientIn :=
  [.send (fun _ => true) 0, .recv [] (.got ⟨[]⟩ (ackPacket 1)) 1,
    .send (fun _ => true) 1, .recv [] (.fail .again) 1,
    .send (fun _ => true) 2, .recv [] (.got ⟨[]⟩ (ackPacket 2)) 2, .recv [] (.fail .again) 3,
    .send (fun _ => true) 3, .recv [] (.fail .again) 3,
    .send (fun _ => true) 4, .recv [] (.got ⟨[]⟩ finAckPacket) 4]

theorem client_deadline_answered :
    ∃ s, Machine.exec (clocked ⟨[]⟩) (init [42] [97] 0) answered = some s ∧
    s.2.client.pc = .done (.returned .ok) ∧ s.2.client.removed.length = 1 ∧ s.1 ≤ 218 := by
  obtain ⟨s, hs, hpc, hremoved⟩ : ∃ s, Machine.exec (clocked ⟨[]⟩)
      (init [42] [97] 0) answered = some s ∧
      s.2.client.pc = .done (.returned .ok) ∧ s.2.client.removed.length = 1 := ⟨_, rfl, rfl, rfl⟩
  refine ⟨s, hs, hpc, hremoved, ?_⟩
  -- every turn takes at most two seconds
  have hprompt : Machine.Meets (clocked ⟨[]⟩) (Prompt 2) (init [42] [97] 0) answered :=
    .cons rfl (show (0 : ℤ) ≤ 0 + 2 by decide) (.cons rfl (show (1 : ℤ) ≤ 0 + 2 by decide)
      (.cons rfl (show (1 : ℤ) ≤ 0 + 2 by decide) (.cons rfl (show (1 : ℤ) ≤ 1 + 2 by decide)
      (.cons rfl (show (2 : ℤ) ≤ 1 + 2 by decide) (.cons rfl (show (2 : ℤ) ≤ 2 + 2 by decide)
      (.cons rfl (show (3 : ℤ) ≤ 2 + 2 by decide) (.cons rfl (show (3 : ℤ) ≤ 2 + 2 by decide)
      (.cons rfl (show (3 : ℤ) ≤ 3 + 2 by decide) (.cons rfl (show (4 : ℤ) ≤ 3 + 2 by decide)
      (.cons rfl (show (4 : ℤ) ≤ 4 + 2 by decide) trivial))))))))))
  exact (client_deadline [42] [97] ⟨[]⟩ 0 2 (by decide) _ s hprompt hs).1

end Turn

/-! ## The child -/

/-- The call with the clock at `t`. -/
def ChildIn.at (t : ℤ) : ChildIn → ChildIn
  | .fopen ok _ => .fopen ok t
  | .send ok again _ => .send ok again t
  | .poll _ temp beyond r => .poll t temp beyond r
  | .fwrite n _ => .fwrite n t
  | i => i

/-- `recvfrom` is called: where its time is up, `read_until_timeout` returns without a call. -/
def Child.listens (now : ℤ) (c : Child) : Prop :=
  match c.pc with
  | .poll startTime => now - startTime < 6
  | _ => True

instance (now : ℤ) (c : Child) : Decidable (c.listens now) := by
  unfold Child.listens
  split <;> infer_instance

/-- When the child last heard of somebody, after a call at `t`: a datagram of whatever source
counts. -/
def Child.heard (c : Child) (t before : ℤ) : ChildIn → ℤ
  | .poll _ _ _ r => if c.listens t ∧ 0 < r.ret then t else before
  | _ => before

theorem ChildIn.at_at (t : ℤ) (i : ChildIn) : (i.at t).at t = i.at t := by
  cases i <;> rfl

theorem Child.heard_at (c : Child) (t before : ℤ) (i : ChildIn) :
    c.heard t before (i.at t) = c.heard t before i := by
  cases i <;> rfl

/-- The child and the time at which it was forked or last received a datagram. -/
structure Listening where
  child : Child
  heard : ℤ

namespace Listening

/-- The events are calls with their times. -/
def step (origin : Addr) (s : Listening) (e : ℤ × ChildIn) : Option Listening :=
  (s.child.step origin (e.2.at e.1)).map fun p =>
    { child := p.1
      heard := s.child.heard e.1 s.heard e.2 }

abbrev clocked (origin : Addr) : ℤ × Listening → ℤ × ChildIn → Option (ℤ × Listening) :=
  Machine.timed Prod.fst (step origin)

/-- Every call is made at most `g` seconds after the one before it. -/
def Prompt (g : ℤ) (s : ℤ × Listening) (e : ℤ × ChildIn) : Prop := e.1 ≤ s.1 + g

def init (datagram : Bytes) (start : ℤ) : ℤ × Listening := ⟨start, Child.init datagram, start⟩

/-- What the clock can be at each point of the child: `now` is its last reading, and the child last
heard of somebody at `heard`. -/
def Limit (g now heard : ℤ) (c : Child) : Prop :=
  match c.pc with
  | .start => now ≤ heard
  | .access => now ≤ heard + g
  | .fopen => now ≤ heard + 2 * g
  | .deny _ _ => now ≤ heard + 3 * g
  | .ackRequest t => t ≤ heard + 3 * g ∧ now ≤ t + 6
  | .poll t => t ≤ heard + 6 + 4 * g ∧ now ≤ t + 6
  | .write _ => now ≤ heard
  | .unlink _ => now ≤ heard + 12 + 5 * g
  | .finackTop t => t ≤ heard ∧ heard ≤ now ∧ now ≤ t + ackTimeout + g
  | .finackRecv t => t ≤ heard ∧ heard ≤ now ∧ now ≤ t + ackTimeout
  | .done _ => now ≤ heard + 12 + 6 * g

section Steps

variable {g now heard : ℤ} {c d : Child} {origin : Addr}

/-- Where the request leads. -/
theorem Limit.parse (hg : 0 ≤ g) (h : now ≤ heard + g) (ok : Bool) :
    Limit g now heard (c.parse ok) := by
  rw [Child.parse]
  split_ifs
  · show now ≤ heard + 12 + 6 * g
    omega
  · show now ≤ heard + 3 * g
    omega
  · cases parseRequest (c.buffer.drop headerSize) with
    | none =>
      show now ≤ heard + 3 * g
      omega
    | some req => exact h

theorem Limit.check (hg : 0 ≤ g) (h : now ≤ heard + 2 * g) (found : Bool) :
    Limit g now heard (c.check found) := by
  rw [Child.check]
  split_ifs
  · show now ≤ heard + 3 * g
    omega
  · cases scanSize c.sizeText with
    | none =>
      show now ≤ heard + 12 + 6 * g
      omega
    | some v =>
      dsimp only
      split_ifs
      · show now ≤ heard + 12 + 6 * g
        omega
      · exact h

/-- A datagram: everything starts again. -/
theorem Limit.handle (hg : 0 ≤ g) (beyond : ℕ → Byte) :
    Limit g now now (c.handle now beyond).1 := by
  have hA : (0 : ℤ) ≤ ackTimeout := by decide
  rw [Child.handle]
  split_ifs
  · exact ⟨by omega, by omega⟩
  · exact le_rfl
  · show now ≤ now + 12 + 5 * g
    omega
  · exact ⟨le_rfl, le_rfl, by omega⟩
  · exact ⟨by omega, by omega⟩

/-- A call whose readings of the clock are `now`. -/
theorem Limit.trans (hg : 0 ≤ g) {before : ℤ} {i : ChildIn} {effs : List Effect}
    (h : Limit g before heard c)
    (hle : before ≤ now) (hprompt : now ≤ before + g) (hi : i.at now = i)
    (ht : Child.Trans origin c i d effs) : Limit g now (c.heard now heard i) d := by
  have hA : ackTimeout = 2 := rfl
  cases ht with
  | @start ok hpc =>
    simp only [Limit, hpc] at h
    dsimp only [Child.heard]
    exact .parse hg (by omega) ok
  | @access found hpc =>
    simp only [Limit, hpc] at h
    dsimp only [Child.heard]
    exact .check hg (by omega) found
  | create hpc =>
    cases hi
    simp only [Limit, hpc] at h
    dsimp only [Child.heard]
    exact ⟨by omega, by omega⟩
  | noCreate hpc =>
    simp only [Limit, hpc] at h
    show now ≤ heard + 3 * g
    omega
  | denied hpc =>
    simp only [Limit, hpc] at h
    show now ≤ heard + 12 + 6 * g
    omega
  | notDenied hpc =>
    simp only [Limit, hpc] at h
    show now ≤ heard + 12 + 6 * g
    omega
  | noAck hpc =>
    simp only [Limit, hpc] at h
    show now ≤ heard + 12 + 5 * g
    omega
  | ackAgain hpc htime =>
    cases hi
    simp only [Limit, hpc, Child.heard] at h ⊢
    exact ⟨h.1, by omega⟩
  | ack hpc =>
    cases hi
    simp only [Limit, hpc] at h
    dsimp only [Child.heard]
    exact ⟨by omega, by omega⟩
  | @idle startTime now' temp beyond r hpc htime hr =>
    cases hi
    rw [Child.heard, if_neg fun hh => hr hh.2]
    simp only [Limit, hpc] at h ⊢
    exact ⟨h.1, by omega⟩
  | @timeout startTime now' temp beyond r hpc htime =>
    cases hi
    have hdeaf : ¬ c.listens now := by
      rw [Child.listens, hpc]
      exact htime
    rw [Child.heard, if_neg fun hh => hdeaf hh.1]
    simp only [Limit, hpc] at h
    show now ≤ heard + 12 + 5 * g
    omega
  | datagram hpc htime hr =>
    cases hi
    have hlistens : c.listens now := by
      rw [Child.listens, hpc]
      exact htime
    rw [Child.heard, if_pos ⟨hlistens, hr⟩]
    exact .handle hg _
  | @fwrite pending n now' hpc hn =>
    cases hi
    simp only [Limit, hpc] at h
    dsimp only [Child.heard]
    rw [Child.afterWrite]
    split_ifs
    · show now ≤ heard + 12 + 6 * g
      omega
    · show now ≤ heard + 12 + 5 * g
      omega
    · exact ⟨by omega, by omega⟩
  | unlink hpc =>
    simp only [Limit, hpc] at h
    show now ≤ heard + 12 + 6 * g
    omega
  | finack hpc htime =>
    cases hi
    simp only [Limit, hpc] at h
    exact ⟨h.1, h.2.1.trans hle, by omega⟩
  | finackTimeout hpc htime =>
    simp only [Limit, hpc] at h
    show now ≤ heard + 12 + 6 * g
    omega
  | @finackRecv t now' temp beyond r hpc =>
    simp only [Limit, hpc] at h
    cases hi
    obtain ⟨ht, hle', hnow⟩ := h
    have hheard : t ≤ c.heard now heard (.poll now temp beyond r) ∧
        c.heard now heard (.poll now temp beyond r) ≤ now := by
      rw [Child.heard]
      split_ifs
      · exact ⟨by omega, le_rfl⟩
      · exact ⟨ht, by omega⟩
    rcases (c.finackStep_frame origin t temp r).1 with hp | hp
    · simp only [Limit, hp]
      omega
    · simp only [Limit, hp]
      exact ⟨hheard.1, hheard.2, by omega⟩

/-- **Every prompt step of the child is in time.** -/
theorem Limit.step (hg : 0 ≤ g) {s t : ℤ × Listening} {e : ℤ × ChildIn}
    (h : Limit g s.1 s.2.heard s.2.child)
    (hprompt : Prompt g s e) (hs : clocked origin s e = some t) :
    Limit g t.1 t.2.heard t.2.child := by
  obtain ⟨hle, hstep, hnow⟩ := Machine.timed_eq_some.mp hs
  obtain ⟨⟨d, effs⟩, hc, ht⟩ := Option.map_eq_some_iff.mp hstep
  rw [hnow, ← ht]
  have hlimit := h.trans hg hle hprompt (e.2.at_at e.1) (Child.trans_of_step hc)
  rwa [s.2.child.heard_at e.1] at hlimit

theorem Limit.clock_le (hg : 0 ≤ g) (h : Limit g now heard c) : now ≤ heard + 12 + 6 * g := by
  have hA : ackTimeout = 2 := rfl
  cases hpc : c.pc <;> simp only [Limit, hpc] at h <;> omega

end Steps

/-- A child that has not ended makes a call next, whatever the time is. -/
theorem can_go_on (origin : Addr) (s : ℤ × Listening) (hpc : ∀ e, s.2.child.pc ≠ .done e) (now : ℤ)
    (hle : s.1 ≤ now) : ∃ i t, clocked origin s (now, i) = some t := by
  have hcall : ∀ (i : ChildIn) p, s.2.child.step origin (i.at now) = some p → ∃ i t,
      clocked origin s (now, i) = some t := fun i p hp =>
      ⟨i, (now, ⟨p.1, s.2.child.heard now s.2.heard i⟩),
      Machine.timed_eq_some.mpr ⟨hle, by rw [step, hp]; rfl, rfl⟩⟩
  cases hp : s.2.child.pc with
  | start =>
    exact hcall (.setup true) (s.2.child.parse true, []) (by simp only [ChildIn.at, Child.step, hp])
  | access =>
    exact hcall (.access true) (s.2.child.check true, [])
      (by simp only [ChildIn.at, Child.step, hp])
  | fopen =>
    exact hcall (.fopen true now) ({ s.2.child with pc := .ackRequest now }, [.create])
      (by simp [ChildIn.at, Child.step, hp])
  | deny cmd status =>
    exact hcall (.send false false now) (s.2.child.finish (.exited .runtimeError), [])
      (by simp [ChildIn.at, Child.step, hp])
  | ackRequest t =>
    exact hcall (.send false false now) ({ s.2.child with pc := .unlink .runtimeError }, [])
      (by simp [ChildIn.at, Child.step, hp])
  | poll t =>
    exact hcall (.poll now [] (fun _ => 0) (.fail .again)) (s.2.child.pollStep origin t now []
      (fun _ => 0) (.fail .again))
      (by simp only [ChildIn.at, Child.step, hp])
  | write pending =>
    exact hcall (.fwrite 0 now) (s.2.child.afterWrite pending 0 now, [.append (pending.take 0)])
      (by simp [ChildIn.at, Child.step, hp])
  | unlink status =>
    exact hcall .unlink (s.2.child.finish (.exited status), [.unlink])
      (by simp only [ChildIn.at, Child.step, hp])
  | finackTop t =>
    by_cases ht : now - t < ackTimeout
    · exact hcall (.send false false now) ({ s.2.child with pc := .finackRecv t }, [])
        (by simp [ChildIn.at, Child.step, hp, ht])
    · exact hcall (.send false false now) (s.2.child.finish (.returned .ok), [])
        (by simp [ChildIn.at, Child.step, hp, ht])
  | finackRecv t =>
    exact hcall (.poll now [] (fun _ => 0) (.fail .again)) (s.2.child.finackStep origin t []
      (.fail .again), [])
      (by simp only [ChildIn.at, Child.step, hp])
  | done e => exact absurd hp (hpc e)

/-- **A child that hears nothing ends.**  Every call following the one before it within `g` seconds,
and whatever the child receives and whatever its calls return: the clock is never more than `12 + 6
* g` seconds past the fork and the last datagram, and a run that has not come to the end can go on
at any time. -/
theorem child_deadline (origin : Addr) (datagram : Bytes) (start g : ℤ) (hg : 0 ≤ g)
    (es : List (ℤ × ChildIn)) (s : ℤ × Listening)
    (hprompt : Machine.Meets (clocked origin) (Prompt g) (init datagram start) es)
    (h : Machine.exec (clocked origin) (init datagram start) es = some s) :
    s.1 ≤ s.2.heard + 12 + 6 * g ∧
      ((∃ e, s.2.child.pc = .done e) ∨ ∀ now, s.1 ≤ now → ∃ i t, clocked origin s (now, i) =
        some t) := by
  refine ⟨?_, ?_⟩
  · exact (Machine.exec_invariant_of_meets (I := fun s => Limit g s.1 s.2.heard s.2.child)
      (fun _ _ _ hI hp hs => hI.step hg hp hs) le_rfl hprompt h).clock_le hg
  · by_cases hdone : ∃ e, s.2.child.pc = .done e
    · exact Or.inl hdone
    · exact Or.inr (can_go_on origin s fun e he => hdone ⟨e, he⟩)

/-- A child whose client is silent after the request. -/
theorem child_deadline_silent : ∃ s, Machine.exec (clocked ⟨[]⟩) (init (requestPacket [97] 1) 0)
      [(0, .setup true), (0, .access false), (1, .fopen true 0), (1, .send true false 0),
        (7, .poll 0 [] (fun _ => 0) (.fail .again)), (8, .unlink)] = some s ∧
    s.2.child.pc = .done (.exited .timeout) ∧ s.1 ≤ 48 := by
  obtain ⟨s, hs, hpc, hheard⟩ : ∃ s, Machine.exec (clocked ⟨[]⟩) (init (requestPacket [97] 1) 0)
      [(0, .setup true), (0, .access false), (1, .fopen true 0), (1, .send true false 0),
        (7, .poll 0 [] (fun _ => 0) (.fail .again)), (8, .unlink)] = some s ∧
      s.2.child.pc = .done (.exited .timeout) ∧ s.2.heard = 0 := ⟨_, rfl, rfl, rfl⟩
  refine ⟨s, hs, hpc, ?_⟩
  have hb := (child_deadline ⟨[]⟩ (requestPacket [97] 1) 0 6 (by decide) _ s ?_ hs).1
  · rw [hheard] at hb
    exact hb
  · refine .cons rfl (show (0 : ℤ) ≤ 0 + 6 by decide)
      (.cons rfl (show (0 : ℤ) ≤ 0 + 6 by decide) ?_)
    refine .cons rfl (show (1 : ℤ) ≤ 0 + 6 by decide)
      (.cons rfl (show (1 : ℤ) ≤ 1 + 6 by decide) ?_)
    exact .cons rfl (show (7 : ℤ) ≤ 1 + 6 by decide)
      (.cons rfl (show (8 : ℤ) ≤ 7 + 6 by decide) trivial)

end Listening

end FortyTwoHundred.Ftp
