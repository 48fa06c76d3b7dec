import FortyTwoHundred.Srtp.Tables

/-!
# Clean — what a new SRTP socket starts with

Two things of an earlier socket can come back with its descriptor.  A descriptor closed by a plain
`close(2)` stays in `fd2conn`; when it is handed out again, the `insert` of `_srtp_socket` leaves
the old entry and the new `Conn_t` is lost.  And `new Conn_t` sets neither the address nor the
thread nor the sequence number: where it returns the block of a deleted connection, that still holds
what it held.

`Process` is the process with its memory.  Blocks of `Sockets` have numbers, and `junk` says what
they hold at first; here a block gets an address that no live block has, and holds what is there.
`_srtp_close` leaves the fields of a connection in the memory it frees, until something else is
written there.  `sockets_clean_iff` says exactly when all new sockets are clean.
-/

namespace FortyTwoHundred.Srtp

namespace Sockets

/-- The state in which a step calls `_srtp_socket` (up to the buffer of the thread), with the
answers of the system. -/
def socketCall (s : Sockets) : Call → Option (Sockets × ℕ × Bool)
  | .socket tries opens => some (s, tries, opens)
  | .datagram _ d =>
    if (s.fd2conn ((s.hash2fd d.srcAddr.ip).getD 0)).join = none then
      some (s.lookup d.srcAddr.ip, d.tries, d.opens)
    else none
  | _ => none

/-- The descriptor that a call of `_srtp_socket` gets is not a key of `fd2conn`. -/
def Unclaimed (s : Sockets) (e : Call) : Prop :=
  ∀ u tries, s.socketCall e = some (u, tries, true) → u.fd2conn (lowestFree u.files) = none

theorem connAt_srtpSocket_iff {u : Sockets} (h : Sound u) (tries : ℕ) :
    (u.srtpSocket tries true).connAt (u.socketFd true) =
        some (u.next, ConnT.fresh (u.socketFd true) (fifoName (u.fifoId + tries))) ↔
      u.fd2conn (lowestFree u.files) = none := by
  constructor
  · intro hat
    cases hk : u.fd2conn (lowestFree u.files) with
    | none => rfl
    | some p =>
      -- the entry was there before the block had a number
      have hp := (fd2conn_srtpSocket hk tries true).symm.trans (connAt_eq_some.mp hat).1
      obtain rfl := Option.some.inj hp
      exact absurd (h.pointer _ _ hk) (lt_irrefl _)
  · exact fun hk => connAt_new hk tries

/-- The state in which `_srtp_socket` is called is as sound as that of the step. -/
theorem sound_of_socketCall {s u : Sockets} {e : Call} {tries : ℕ} {opens : Bool} (h : Sound s)
    (hu : s.socketCall e = some (u, tries, opens)) : Sound u := by
  cases e with
  | socket n opens =>
    obtain ⟨rfl, -⟩ := Prod.mk.inj (Option.some.inj hu)
    exact h
  | datagram k d =>
    simp only [socketCall] at hu
    split_ifs at hu
    obtain ⟨rfl, -⟩ := Prod.mk.inj (Option.some.inj hu)
    exact h.lookup _
  | _ => cases hu

/-- The connection that a step deletes, with its number and descriptor. -/
def deleted (s : Sockets) : Call → Option (ℕ × ℤ × ConnT)
  | .close fd => if s.isOpenSRTPSock fd then (s.connAt fd).map fun x => (x.1, fd, x.2) else none
  | _ => none

end Sockets

/-! ## The memory of the connections -/

/-- What a connection leaves in its memory; `j` is what the memory held before it. -/
def ConnT.left (j : Junk) (c : ConnT) : Junk :=
  ⟨c.readTid j, c.readSock j, c.readAddr j, c.readAddrLen j, c.readSequence j⟩

/-- A read of the thread, address or sequence number of `d`, or its inbox, gives what `c` has. -/
def ConnT.Recalls (j : Junk) (d c : ConnT) : Prop :=
  c.tid = some (d.readTid j) ∨ c.addrLen = some (d.readAddrLen j) ∨
    (c.addr ≠ [] ∧ c.addr <+: d.readAddr j) ∨ c.sequence = some (d.readSequence j) ∨
    (c.inbox ≠ [] ∧ d.inbox = c.inbox)

/-- The memory holds the thread, address or sequence number of `c`. -/
def Junk.Keeps (j : Junk) (c : ConnT) : Prop :=
  c.tid = some j.tid ∨ c.addrLen = some j.addrLen ∨
    (c.addr ≠ [] ∧ c.addr <+: j.addr.take sockaddrSize) ∨ c.sequence = some j.sequence

theorem recalls_fresh_iff {j : Junk} {fd : ℤ} {name : String} {c : ConnT} :
    (ConnT.fresh fd name).Recalls j c ↔ j.Keeps c := by
  have hinbox : ¬ (c.inbox ≠ [] ∧ [] = c.inbox) := fun h => h.1 h.2.symm
  simp only [ConnT.Recalls, Junk.Keeps, ConnT.fresh, ConnT.readTid, ConnT.readAddrLen,
    ConnT.readAddr, ConnT.readSequence, Option.getD_none, overlay, List.nil_append,
    List.length_nil, List.drop_zero, hinbox, or_false]

structure Process where
  sockets : Sockets
  /-- what a block held when it was allocated, and its address -/
  junk : ℕ → Junk
  place : ℕ → ℕ
  /-- what free memory holds -/
  memory : ℕ → Junk
  /-- the connections that have been deleted, with their descriptors -/
  past : List (ℤ × ConnT)

inductive ProcessEv
  /-- a call; if it allocates a connection, at this address -/
  | call (e : Call) (a : ℕ)
  /-- something else is written to free memory -/
  | write (a : ℕ) (j : Junk)

namespace Process

/-- No live block has the address. -/
def isFree (p : Process) (a : ℕ) : Bool :=
  (List.range p.sockets.next).all fun id =>
    (p.sockets.heap id).isNone || decide (p.place id ≠ a)

/-- What the blocks hold at first, if the next one is at `a`. -/
def junkAt (p : Process) (a : ℕ) : ℕ → Junk :=
  Function.update p.junk p.sockets.next (p.memory a)

def step (bo : ByteOrder) (p : Process) : ProcessEv → Option Process
  | .call e a =>
    if p.isFree a then
      (p.sockets.step bo (p.junkAt a) e).map fun s =>
        let q := { p with
          sockets := s
          junk := p.junkAt a
          place := Function.update p.place p.sockets.next a }
        match p.sockets.deleted e with
        | none => q
        | some (id, fd, c) =>
          { q with
            memory := Function.update p.memory (p.place id) (c.left (p.junkAt a id))
            past := p.past ++ [(fd, c)] }
    else none
  | .write a j =>
    if p.isFree a then some { p with memory := Function.update p.memory a j } else none

/-- A process that has made no SRTP call; its memory holds anything. -/
def start (files : List ℕ) (memory : ℕ → Junk) : Process :=
  ⟨Sockets.init files, memory, fun _ => 0, memory, []⟩

/-- A call of `_srtp_socket` that succeeds leaves the `Conn_t` it has allocated as the connection of
the descriptor it returns, with its fifo's name, and a read of it gives nothing of an earlier
socket with that descriptor. -/
def Clean (p : Process) : ProcessEv → Prop
  | .call e a => ∀ u tries, p.sockets.socketCall e = some (u, tries, true) →
      u.heap u.next = none ∧
      ∃ d, (u.srtpSocket tries true).connAt (u.socketFd true) = some (u.next, d) ∧
        d.filename = fifoName (u.fifoId + tries) ∧ d.inbox = [] ∧
        ∀ c, (u.socketFd true, c) ∈ p.past → ¬ d.Recalls (p.junkAt a p.sockets.next) c
  | .write _ _ => True

/-- The descriptor that a call of `_srtp_socket` gets is not a key of `fd2conn`, and the memory that
`new` returns holds nothing of a deleted connection with that descriptor. -/
def Unused (p : Process) : ProcessEv → Prop
  | .call e a => ∀ u tries, p.sockets.socketCall e = some (u, tries, true) →
      u.fd2conn (lowestFree u.files) = none ∧
      ∀ c, ((lowestFree u.files : ℤ), c) ∈ p.past → ¬ (p.memory a).Keeps c
  | .write _ _ => True

variable {bo : ByteOrder} {p q : Process} {ev : ProcessEv}

theorem sound_step (h : p.sockets.Sound) (hs : p.step bo ev = some q) : q.sockets.Sound := by
  cases ev with
  | call e a =>
    simp only [step] at hs
    split_ifs at hs
    obtain ⟨s, hstep, rfl⟩ := Option.map_eq_some_iff.mp hs
    have hsound := h.step hstep
    split <;> exact hsound
  | write a j =>
    simp only [step] at hs
    split_ifs at hs
    obtain rfl := Option.some.inj hs
    exact h

theorem clean_iff (h : p.sockets.Sound) : p.Clean ev ↔ p.Unused ev := by
  cases ev with
  | write a j => exact Iff.rfl
  | call e a =>
    refine forall_congr' fun u => forall_congr' fun tries => forall_congr' fun hu => ?_
    have hsound := Sockets.sound_of_socketCall h hu
    have hjunk : p.junkAt a p.sockets.next = p.memory a := Function.update_self _ _ _
    rw [hjunk]
    constructor
    · rintro ⟨-, d, hat, -, -, hpast⟩
      have hfree : u.fd2conn (lowestFree u.files) = none := by
        cases hk : u.fd2conn (lowestFree u.files) with
        | none => rfl
        | some r =>
          -- the entry was there before the block had a number
          have hr := (Sockets.fd2conn_srtpSocket hk tries true).symm.trans
            (Sockets.connAt_eq_some.mp hat).1
          obtain rfl := Option.some.inj hr
          exact absurd (hsound.pointer _ _ hk) (lt_irrefl _)
      have hd := hat.symm.trans (Sockets.connAt_new hfree tries)
      obtain ⟨-, rfl⟩ := Prod.mk.inj (Option.some.inj hd)
      exact ⟨hfree, fun c hc hkeeps => hpast c hc (recalls_fresh_iff.mpr hkeeps)⟩
    · rintro ⟨hfree, hpast⟩
      exact ⟨hsound.heap _ le_rfl, _, Sockets.connAt_new hfree tries, rfl, rfl,
        fun c hc hrec => hpast c hc (recalls_fresh_iff.mp hrec)⟩

/-- **New sockets**: along a run of calls, whatever memory `new` returns and whatever else is
written to free memory, every successful call of `_srtp_socket` gives its descriptor a connection of
its own, with nothing of an earlier socket with that descriptor, exactly if no such call gets a
descriptor that is still a key of `fd2conn`, or memory that still holds something of one. -/
theorem sockets_clean_iff (bo : ByteOrder) (files : List ℕ) (memory : ℕ → Junk)
    (es : List ProcessEv) :
    Machine.Meets (step bo) Clean (start files memory) es ↔
      Machine.Meets (step bo) Unused (start files memory) es :=
  Machine.meets_congr (J := fun p => p.sockets.Sound) (fun _ _ _ => sound_step)
    (fun _ _ => clean_iff) (Sockets.sound_init files) es

/-- A socket is made and bound to port 3000. -/
def bound : List ProcessEv :=
  [.call (.socket 0 true) 0, .call (.bind 3 (some (Source.sockaddr .little ⟨0, 3000⟩))) 1]

/-- Closed by `close(2)`, it gives its connection to the next socket.  Closed by `_srtp_close`, it
gives it its address if `new` returns the same block: the next socket listens at port 3000. -/
theorem socket_after_close :
    (∃ p, Machine.exec (step .little) (start [0, 1, 2] Sockets.zeroJunk)
        (bound ++ [.call (.osClose 3) 1, .call (.socket 0 true) 1]) = some p ∧
      p.sockets.log = [.ret 3, .ret 0, .ret 3] ∧
      (∃ c, p.sockets.connAt 3 = some (0, c) ∧ c.addrLen = some 16) ∧
      ¬ Machine.Meets (step .little) Clean (start [0, 1, 2] Sockets.zeroJunk)
        (bound ++ [.call (.osClose 3) 1, .call (.socket 0 true) 1])) ∧
    ∃ p, Machine.exec (step .little) (start [0, 1, 2] Sockets.zeroJunk)
        (bound ++ [.call (.close 3) 1, .call (.socket 0 true) 0,
          .call (.listen 3 true true 7 []) 1]) = some p ∧
      p.sockets.log = [.ret 3, .ret 0, .ret 0, .ret 3,
        .bind 4 (Source.sockaddr .little ⟨0, 3000⟩) 16, .ret 0] ∧
      ¬ Machine.Meets (step .little) Clean (start [0, 1, 2] Sockets.zeroJunk)
        (bound ++ [.call (.close 3) 1, .call (.socket 0 true) 0,
          .call (.listen 3 true true 7 []) 1]) := by
  refine ⟨⟨_, rfl, rfl, ⟨_, rfl, rfl⟩, fun hm => ?_⟩, ⟨_, rfl, rfl, fun hm => ?_⟩⟩
  · obtain ⟨-, d, hat, -⟩ := (((hm.2 _ rfl).2 _ rfl).2 _ rfl).1 _ 0 rfl
    have hid : some 0 = some 1 := congrArg (Option.map Prod.fst) hat
    exact absurd hid (by decide)
  · have hclean := (((hm.2 _ rfl).2 _ rfl).2 _ rfl).1
    obtain ⟨-, d, hat, -, -, hpast⟩ := hclean _ 0 rfl
    have hd := hat.symm.trans (Sockets.connAt_new rfl 0)
    obtain ⟨-, rfl⟩ := Prod.mk.inj (Option.some.inj hd)
    exact hpast _ (List.mem_cons_self ..) (Or.inr (Or.inl rfl))

end Process

end FortyTwoHundred.Srtp
