import FortyTwoHundred.Lib.Machine
import FortyTwoHundred.Lib.StdMap
import FortyTwoHundred.Lib.Reassembly
import FortyTwoHundred.Srtp.Receive

/-!
# Sockets — the SRTP calls and their tables (`srtp_impl.cpp`)

The process as a machine: its descriptors, the tables `fd2conn`, `hash2fd` and `new_conns`, the
`Conn_t` blocks on the heap and the server threads.  A step is one call of the API, a plain
`close(2)`, or one datagram that a server thread handles.  What the system calls answer (whether a
`socket`, an `open` or a `bind` succeeds, a thread id, …) is part of the event.  Descriptors are
handed out lowest first.

A `Conn_t` has fields that `_srtp_socket` does not set.  They are `none` until they are set, and a
read of such a field gives what `junk` says the fresh block held.  A call that dereferences a null
or deleted connection, or copies past the end of an address, is a `Fault`, and nothing happens
after it.

`log` records what can be seen of the calls: their values, writes to fifos, `bind`, `pthread_cancel`
and `pthread_join`, the addresses given out by `_srtp_accept`, and which connection a datagram is
handled with.
-/

namespace FortyTwoHundred.Srtp

/-- `sizeof (struct sockaddr_in)`. -/
def sockaddrSize : ℕ := 16

/-- What a fresh block holds where `_srtp_socket` sets nothing. -/
structure Junk where
  tid : ℕ
  sock : ℤ
  addr : Bytes
  addrLen : ℕ
  sequence : UInt32

/-- `Conn_t`; of `addr` the bytes at its start that have been set. -/
structure ConnT where
  tid : Option ℕ
  fifo : ℤ
  filename : String
  sock : Option ℤ
  addr : Bytes
  addrLen : Option ℕ
  sequence : Option UInt32
  inbox : List Mesg

namespace ConnT

/-- The `Conn_t` of a new socket. -/
def fresh (fd : ℤ) (filename : String) : ConnT := ⟨none, fd, filename, none, [], none, none, []⟩

variable (j : Junk) (c : ConnT)

def readTid : ℕ := c.tid.getD j.tid
def readSock : ℤ := c.sock.getD j.sock
def readAddr : Bytes := overlay c.addr (j.addr.take sockaddrSize)
def readAddrLen : ℕ := c.addrLen.getD j.addrLen
def readSequence : UInt32 := c.sequence.getD j.sequence

/-- The connection that `_srtp_bind` leaves. -/
def bound (bs : Bytes) :
    ConnT := { c with addr := (overlay bs c.addr).take sockaddrSize, addrLen := some bs.length }

end ConnT

/-- Address and port of a sender, as the code reads them from a `sockaddr_in`. -/
structure Source where
  ip : UInt32
  port : UInt16
  deriving DecidableEq

/-- `struct sockaddr_in`; `sin_port` and `s_addr` are read and stored as numbers of the machine. -/
structure SockaddrIn where
  family : UInt16
  port : UInt16
  ip : UInt32
  zero : Fin 8 → Byte

/-- The bytes of it. -/
def SockaddrIn.bytes (bo : ByteOrder) (a : SockaddrIn) : Bytes :=
  let lo := UInt16.ofNat (a.ip.toNat % 65536)
  let hi := UInt16.ofNat (a.ip.toNat / 65536)
  bo.bytes a.family ++ bo.bytes a.port ++
    (match bo with
      | .little => bo.bytes lo ++ bo.bytes hi
      | .big => bo.bytes hi ++ bo.bytes lo) ++
    [a.zero 0, a.zero 1, a.zero 2, a.zero 3, a.zero 4, a.zero 5, a.zero 6, a.zero 7]

theorem SockaddrIn.length_bytes (bo : ByteOrder) (a : SockaddrIn) :
    (a.bytes bo).length = sockaddrSize := by
  cases bo <;> rfl

/-- Where an acknowledgement is sent to. -/
def SockaddrIn.source (a : SockaddrIn) : Source := ⟨a.ip, a.port⟩

/-- What `recvfrom` fills in for a sender. -/
def Source.sockaddrIn (src : Source) : SockaddrIn := ⟨2, src.port, src.ip, fun _ => 0⟩

def Source.sockaddr (bo : ByteOrder) (src : Source) : Bytes := src.sockaddrIn.bytes bo

inductive Obs
  | ret (value : ℤ)
  | fifoWrite (fd : ℤ) (bytes : Bytes)
  | bind (sock : ℤ) (addr : Bytes) (len : ℕ)
  | cancel (tid : ℕ)
  | join (tid : ℕ)
  | address (bytes : Bytes)
  | handled (src : Source) (conn : ℕ)
  | ack (sock : ℤ) (seq : UInt16) (src : Source)
  deriving DecidableEq

inductive Fault
  /-- a null pointer or a deleted connection is dereferenced -/
  | badConn
  /-- a copy goes past the end of an address -/
  | overflow
  deriving DecidableEq

/-- A thread of `server_proxy`: its id, the socket it receives on, and its buffer. -/
structure Server where
  tid : ℕ
  sock : ℤ
  buffer : Bytes

/-- The thread after `recvfrom` has stored a datagram over what its buffer held. -/
def Server.store (v : Server) (datagram : Bytes) : Server :=
  { v with buffer := overlay (datagram.take bufferSize) v.buffer }

/-- The state of the process; a value of `fd2conn` is a pointer, `none` for `NULL`. -/
structure Sockets where
  files : List ℕ
  udp : List ℕ
  fd2conn : ℤ → Option (Option ℕ)
  hash2fd : UInt32 → Option ℤ
  newConns : List ℤ
  heap : ℕ → Option ConnT
  /-- number of the next block -/
  next : ℕ
  fifoId : ℕ
  servers : List Server
  fault : Option Fault
  log : List Obs

/-- A datagram at a server thread: its sender, what `src_addr` holds when it is received, the memory
after the buffer, and the answers of the system to a `_srtp_socket` made for it.

`src_addr` holds the address of the sender, except for the first datagram of a thread:
`src_addr_len` and `src_addr` are not initialised, so there `recvfrom` may store only a part of the
address over what happened to be there.  After it `src_addr_len` is the size of a `sockaddr_in`. -/
structure Datagram where
  src : Source
  srcAddr : SockaddrIn
  bytes : Bytes
  beyond : ℕ → Byte
  tries : ℕ
  opens : Bool

inductive Call
  /-- number of `mkfifo` calls that fail, and whether `open` succeeds -/
  | socket (tries : ℕ) (opens : Bool)
  | bind (fd : ℤ) (address : Option Bytes)
  /-- results of `socket` and `bind`, the id of the thread and what its buffer holds -/
  | listen (fd : ℤ) (sockOk bindOk : Bool) (tid : ℕ) (buffer : Bytes)
  /-- results of `socket`, `connect` and `establish_conn`, and the id of the thread -/
  | connect (fd : ℤ) (address : Option Bytes) (sockOk connOk established : Bool) (tid : ℕ)
  /-- `*address_len`, if the pointers are not null -/
  | accept (fd : ℤ) (addressLen : Option ℕ)
  | close (fd : ℤ)
  /-- a plain `close(2)` -/
  | osClose (fd : ℤ)
  /-- the `k`-th server thread handles a datagram -/
  | datagram (k : ℕ) (d : Datagram)

/-- The lowest descriptor that is not open. -/
def lowestFree (files : List ℕ) :
    ℕ := ((List.range (files.length + 1)).find? fun n => !files.contains n).getD 0

/-- `sprintf (filename, "tmpfifo%05d", id)`. -/
def fifoName (id : ℕ) : String :=
  let digits := Nat.toDigits 10 id
  "tmpfifo" ++ String.ofList (List.replicate (5 - digits.length) '0' ++ digits)

def isValidIPAddress (address : Option Bytes) : Bool :=
  match address with
  | some bs => decide (0 < bs.length)
  | none => false

namespace Sockets

/-- A process that has made no SRTP call; `files` are its open descriptors. -/
def init (files : List ℕ) : Sockets where
  files := files
  udp := []
  fd2conn := fun _ => none
  hash2fd := fun _ => none
  newConns := []
  heap := fun _ => none
  next := 0
  fifoId := 0
  servers := []
  fault := none
  log := []

/-! ## Building blocks -/

def observe (o : Obs) (s : Sockets) : Sockets := { s with log := s.log ++ [o] }

def ret (v : ℤ) (s : Sockets) : Sockets := s.observe (.ret v)

def crash (f : Fault) (s : Sockets) : Sockets := { s with fault := some f }

def isOpenSRTPSock (s : Sockets) (fd : ℤ) : Bool :=
  decide (0 ≤ fd) && s.files.contains fd.toNat && (s.fd2conn fd).isSome

/-- `close(2)`. -/
def closeFd (fd : ℤ) (s : Sockets) : Sockets :=
  { s with
    files := s.files.filter fun n => decide ((n : ℤ) ≠ fd)
    udp := s.udp.filter fun n => decide ((n : ℤ) ≠ fd) }

/-- `socket (AF_INET, SOCK_DGRAM, 0)`: the descriptor it returns. -/
def udpFd (ok : Bool) (s : Sockets) : ℤ := if ok then lowestFree s.files else -1

/-- The state after it. -/
def openUdp (ok : Bool) (s : Sockets) : Sockets :=
  if ok then { s with files := lowestFree s.files :: s.files, udp := lowestFree s.files :: s.udp }
    else s

def setConn (id : ℕ) (c : ConnT) (s : Sockets) :
    Sockets := { s with heap := StdMap.put s.heap id c }

/-- `fd2conn[fd]` in an expression: an entry is made if there is none. -/
def touch (fd : ℤ) (s : Sockets) : Sockets := { s with fd2conn := StdMap.insert s.fd2conn fd none }

/-- `hash2fd.insert`. -/
def record (ip : UInt32) (fd : ℤ) (s : Sockets) :
    Sockets := { s with hash2fd := StdMap.insert s.hash2fd ip fd }

/-- The block that `fd2conn[fd]` points to, with its number. -/
def connAt (s : Sockets) (fd : ℤ) : Option (ℕ × ConnT) :=
  (s.fd2conn fd).join.bind fun id => (s.heap id).map fun c => (id, c)

/-- Code that dereferences `fd2conn[fd]`. -/
def deref (fd : ℤ) (k : ℕ → ConnT → Sockets → Sockets) (s : Sockets) : Sockets :=
  match s.connAt fd with
  | some (id, c) => k id c (s.touch fd)
  | none => (s.touch fd).crash .badConn

/-! ## The calls -/

/-- The descriptor `_srtp_socket` returns. -/
def socketFd (opens : Bool) (s : Sockets) : ℤ := if opens then lowestFree s.files else -1

/-- `_srtp_socket`: a fifo is made and opened, and a `Conn_t` allocated and inserted. -/
def srtpSocket (tries : ℕ) (opens : Bool) (s : Sockets) : Sockets :=
  let id := s.fifoId + tries
  if opens then
    let fd := lowestFree s.files
    { s with
      fifoId := id + 1
      files := fd :: s.files
      heap := StdMap.put s.heap s.next (ConnT.fresh fd (fifoName id))
      next := s.next + 1
      fd2conn := StdMap.insert s.fd2conn fd (some s.next) }
  else { s with fifoId := id + 1 }

/-- `_srtp_bind`. -/
def srtpBind (fd : ℤ) (address : Option Bytes) (s : Sockets) : Sockets :=
  if !s.isOpenSRTPSock fd then s.ret (-1)
  else if !isValidIPAddress address then s.ret (-1)
  else
    let bs := address.getD []
    s.deref fd fun id c s =>
      let s := s.setConn id { c with
        addr := (overlay bs c.addr).take sockaddrSize
        addrLen := some bs.length }
      if sockaddrSize < bs.length then s.crash .overflow else s.ret 0

/-- `_srtp_listen`. -/
def srtpListen (junk : ℕ → Junk) (fd : ℤ) (sockOk bindOk : Bool) (tid : ℕ) (buffer : Bytes)
    (s : Sockets) : Sockets :=
  if !s.isOpenSRTPSock fd then s.ret (-1)
  else
    s.deref fd fun id c s =>
      let sock := s.udpFd sockOk
      let c := { c with sock := some sock }
      let s := (s.openUdp sockOk).setConn id c
      let len := c.readAddrLen (junk id)
      if len = 0 then s.ret (-1)
      else
        let s := s.observe (.bind sock ((c.readAddr (junk id)).take len) len)
        -- `bind` on the descriptor -1 fails
        if !(sockOk && bindOk) then s.ret (-1)
        else
          let s := s.setConn id { c with tid := some tid }
          ret 0 { s with servers := s.servers ++ [⟨tid, sock, buffer⟩] }

/-- `_srtp_connect`. -/
def srtpConnect (fd : ℤ) (address : Option Bytes) (sockOk connOk established : Bool) (tid : ℕ)
    (s : Sockets) : Sockets :=
  if !s.isOpenSRTPSock fd then s.ret (-1)
  else if !isValidIPAddress address then s.ret (-1)
  else
    let bs := address.getD []
    let sock := s.udpFd sockOk
    let s := s.openUdp sockOk
    -- `connect` on the descriptor -1 fails
    if !(sockOk && connOk) then s.ret (-1)
    else
      s.deref fd fun id c s =>
        let c := { c with addr := (overlay bs c.addr).take sockaddrSize, sock := some sock }
        let s := s.setConn id c
        if sockaddrSize < bs.length then s.crash .overflow
        else if !established then (s.closeFd sock).ret (-1)
        else (s.setConn id { c with tid := some tid }).ret 0

/-- `_srtp_accept`; `none` while it waits for a connection. -/
def srtpAccept (junk : ℕ → Junk) (fd : ℤ) (addressLen : Option ℕ) (s : Sockets) : Option Sockets :=
  if !s.isOpenSRTPSock fd then some (s.ret (-1))
  else
    match s.newConns with
    | [] => none
    | fifo :: rest =>
      let s := { s with newConns := rest }
      match addressLen with
      | none => some ((s.touch fifo).ret fifo)
      | some n =>
        some (s.deref fifo fun id c s =>
          let len := c.readAddrLen (junk id)
          let s := s.observe (.address ((c.readAddr (junk id)).take len))
          if sockaddrSize < len then s.crash .overflow
          else (s.setConn id { c with addrLen := some n }).ret fifo)

/-- `_srtp_close`. -/
def srtpClose (junk : ℕ → Junk) (fd : ℤ) (s : Sockets) : Sockets :=
  if !s.isOpenSRTPSock fd then s.ret (-1)
  else
    (s.closeFd fd).deref fd fun id c s =>
      let tid := c.readTid (junk id)
      let s :=
        if tid ≠ 0 then
          let s := ((s.closeFd (c.readSock (junk id))).observe (.cancel tid)).observe (.join tid)
          { s with servers := s.servers.filter fun v => decide (v.tid ≠ tid) }
        else s
      ret 0 { s with fd2conn := StdMap.erase s.fd2conn fd, heap := StdMap.erase s.heap id }

/-! ## A server thread -/

/-- The packet in the buffer is handled with the connection `id`: `handle_data_pkt` and the
acknowledgement, or `handle_cmd_pkt`, which does nothing. -/
def handlePkt (bo : ByteOrder) (junk : ℕ → Junk) (v : Server) (d : Datagram) (id : ℕ) (c : ConnT)
    (s : Sockets) : Sockets :=
  let s := s.observe (.handled d.src id)
  if 0 < (header bo v.buffer).len then
    let p := handleDataPkt bo v.buffer d.beyond ⟨c.readSequence (junk id), c.inbox⟩
    let s :=
      match p.2 with
      | some w => (s.setConn id { c with sequence := some p.1.sequence }).observe
          (.fifoWrite c.fifo w.bytes)
      | none => s.setConn id { c with inbox := p.1.inbox }
    s.observe (.ack v.sock (header bo v.buffer).seq d.srcAddr.source)
  else s

/-- The tables after the look-up of `src_addr`: `hash2fd[s_addr]` and `fd2conn[fifo]` make the
entries they do not find. -/
def lookup (ip : UInt32) (s : Sockets) : Sockets := (s.record ip 0).touch ((s.hash2fd ip).getD 0)

/-- A connection made for the sender of a datagram: its address is stored, it is recorded (`insert`
does not replace the entry that `operator[]` has made), and the packet is handled. -/
def adopt (bo : ByteOrder) (junk : ℕ → Junk) (v : Server) (d : Datagram) (fd : ℤ) (id : ℕ)
    (c : ConnT) (s : Sockets) : Sockets :=
  let c := { c with addr := d.srcAddr.bytes bo, addrLen := some bufferSize }
  ((s.setConn id c).record d.srcAddr.ip fd).handlePkt bo junk v d id c

/-- A turn of the loop of `recv_srtp_data` for a datagram, on the buffer that holds it.  The second
component is the value the function returns: it never returns. -/
def recvSrtpData (bo : ByteOrder) (junk : ℕ → Junk) (v : Server) (d : Datagram) (s : Sockets) :
    Sockets × Option ℤ :=
  let fifo := (s.hash2fd d.srcAddr.ip).getD 0
  let s := s.lookup d.srcAddr.ip
  match (s.fd2conn fifo).join with
  | some _ => (s.deref fifo (handlePkt bo junk v d), none)
  | none =>
    let fd := s.socketFd d.opens
    ((s.srtpSocket d.tries d.opens).deref fd (adopt bo junk v d fd), none)

/-- What `server_proxy` does with a datagram of `n` bytes that `recv_srtp_data` has returned. -/
def announce (bo : ByteOrder) (v : Server) (d : Datagram) (n : ℤ) (s : Sockets) : Sockets :=
  match s.hash2fd d.srcAddr.ip with
  | none =>
    let fd := s.socketFd d.opens
    (s.srtpSocket d.tries d.opens).deref fd fun id c s =>
      let s := s.setConn id { c with addr := d.srcAddr.bytes bo, addrLen := some sockaddrSize }
      let s := s.observe (.fifoWrite fd (v.buffer.take n.toNat))
      { s with newConns := s.newConns ++ [fd] }.record d.srcAddr.ip fd
  | some fifo => s.observe (.fifoWrite fifo (v.buffer.take n.toNat))

/-- A datagram arrives at the `k`-th thread of `server_proxy`. -/
def serverProxy (bo : ByteOrder) (junk : ℕ → Junk) (k : ℕ) (v : Server) (d : Datagram)
    (s : Sockets) : Sockets :=
  let v := v.store d.bytes
  let s := { s with servers := s.servers.set k v }
  match s.recvSrtpData bo junk v d with
  | (s, none) => s
  | (s, some n) => if n < 0 then { s with servers := s.servers.eraseIdx k } else s.announce bo v d n

/-- Threads receive while their descriptor is an open UDP socket. -/
def receives (s : Sockets) (v : Server) : Bool := s.udp.any fun n => decide ((n : ℤ) = v.sock)

/-- One step; `none` if it cannot happen: nothing does after a fault, `_srtp_accept` waits, or there
is no such thread or it does not receive. -/
def step (bo : ByteOrder) (junk : ℕ → Junk) (s : Sockets) (e : Call) : Option Sockets :=
  if s.fault.isSome then none
  else
    match e with
    | .socket tries opens => some ((s.srtpSocket tries opens).ret (s.socketFd opens))
    | .bind fd address => some (s.srtpBind fd address)
    | .listen fd sockOk bindOk tid buffer => some (s.srtpListen junk fd sockOk bindOk tid buffer)
    | .connect fd address sockOk connOk established tid =>
      some (s.srtpConnect fd address sockOk connOk established tid)
    | .accept fd addressLen => s.srtpAccept junk fd addressLen
    | .close fd => some (s.srtpClose junk fd)
    | .osClose fd => some (s.closeFd fd)
    | .datagram k d => ((s.servers[k]?).filter s.receives).map fun v => s.serverProxy bo junk k v d

/-! ## What the building blocks do -/

section Blocks

variable {s : Sockets} {fd : ℤ} {id : ℕ} {c : ConnT}

theorem connAt_eq_some : s.connAt fd = some (id, c) ↔ s.fd2conn fd = some (some id) ∧
    s.heap id = some c := by
  unfold connAt
  constructor
  · intro h
    obtain ⟨i, hi, h⟩ := Option.bind_eq_some_iff.mp h
    obtain ⟨c', hc, e⟩ := Option.map_eq_some_iff.mp h
    obtain ⟨rfl, rfl⟩ := Prod.mk.inj e
    exact ⟨Option.join_eq_some_iff.mp hi, hc⟩
  · rintro ⟨h1, h2⟩
    simp [h1, h2]

theorem touch_of_some {p : Option ℕ} (h : s.fd2conn fd = some p) : s.touch fd = s := by
  unfold touch
  rw [StdMap.insert_of_some h]

/-- A connection that is there is used, and the table does not change. -/
theorem deref_of_connAt (h : s.connAt fd = some (id, c)) (k : ℕ → ConnT → Sockets → Sockets) :
    s.deref fd k = k id c s := by
  unfold deref
  rw [h]
  show k id c (s.touch fd) = k id c s
  rw [touch_of_some (connAt_eq_some.mp h).1]

theorem deref_of_none (h : s.connAt fd = none) (k : ℕ → ConnT → Sockets → Sockets) :
    s.deref fd k = (s.touch fd).crash .badConn := by
  unfold deref
  rw [h]

/-- What `_srtp_bind` can do: it refuses its arguments, it finds no connection, or it stores the
address, and goes past its end if it is too long. -/
theorem srtpBind_cases (fd : ℤ) (address : Option Bytes) (s : Sockets) :
    (s.srtpBind fd address = s.ret (-1) ∧
      (s.isOpenSRTPSock fd = true → isValidIPAddress address = false)) ∨
      (s.isOpenSRTPSock fd = true ∧ s.connAt fd = none ∧ s.srtpBind fd address =
        (s.touch fd).crash .badConn) ∨
      ∃ id c bs, s.isOpenSRTPSock fd = true ∧ s.connAt fd = some (id, c) ∧ address = some bs ∧
        s.srtpBind fd address =
          if sockaddrSize < bs.length then (s.setConn id (c.bound bs)).crash .overflow
          else (s.setConn id (c.bound bs)).ret 0 := by
  unfold srtpBind
  by_cases ho : s.isOpenSRTPSock fd = true
  · rw [if_neg (by simp [ho])]
    by_cases hv : isValidIPAddress address = true
    · rw [if_neg (by simp [hv])]
      cases hat : s.connAt fd with
      | none => exact Or.inr (Or.inl ⟨ho, rfl, deref_of_none hat _⟩)
      | some p =>
        obtain ⟨id, c⟩ := p
        cases address with
        | none => cases hv
        | some bs => exact Or.inr (Or.inr ⟨id, c, bs, ho, rfl, rfl, deref_of_connAt hat _⟩)
    · rw [if_pos (by simpa using hv)]
      exact Or.inl ⟨rfl, fun _ => by simpa using hv⟩
  · rw [if_pos (by simpa using ho)]
    exact Or.inl ⟨rfl, fun h => absurd h ho⟩

/-- `recv_srtp_data` does not return. -/
theorem recvSrtpData_snd (bo : ByteOrder) (junk : ℕ → Junk) (v : Server) (d : Datagram)
    (s : Sockets) : (s.recvSrtpData bo junk v d).2 = none := by
  unfold recvSrtpData
  dsimp only
  split <;> rfl

/-- So `server_proxy` never gets to the code after it. -/
theorem serverProxy_eq (bo : ByteOrder) (junk : ℕ → Junk) (k : ℕ) (v : Server) (d : Datagram)
    (s : Sockets) : s.serverProxy bo junk k v d =
      (recvSrtpData bo junk (v.store d.bytes) d
        { s with servers := s.servers.set k (v.store d.bytes) }).1 := by
  unfold serverProxy
  dsimp only
  split
  · next hr => rw [hr]
  · next n hr =>
    have := recvSrtpData_snd bo junk (v.store d.bytes) d
      { s with servers := s.servers.set k (v.store d.bytes) }
    rw [hr] at this
    cases this

end Blocks

end Sockets

/-- The descriptor handed out is free, and all below it are open. -/
theorem lowestFree_eq (files : List ℕ) : lowestFree files = Reassembly.missing files := by
  have hsome : ((List.range (files.length + 1)).find? fun n => !files.contains n) ≠ none := by
    intro hnone
    have hsub : List.range (files.length + 1) ⊆ files := by
      intro n hn
      have := List.find?_eq_none.mp hnone n hn
      simpa using this
    have hle := (List.nodup_range.subperm hsub).length_le
    rw [List.length_range] at hle
    omega
  obtain ⟨n, hn⟩ := Option.ne_none_iff_exists'.mp hsome
  obtain ⟨h1, -, h2⟩ := List.find?_range_eq_some.mp hn
  unfold lowestFree
  rw [hn]
  refine (Reassembly.missing_eq (by simpa using h1) fun i hi => ?_).symm
  simpa using h2 i hi

end FortyTwoHundred.Srtp
