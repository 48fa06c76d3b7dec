import FortyTwoHundred.Ftp.Window
import FortyTwoHundred.Ftp.Server

/-!
# Session — one client and one server child over an unreliable network

The network keeps every datagram that was ever sent: it may deliver each of them late, more than
once, in any order, or not at all, but it delivers nothing else.  All local `fread`, `fwrite` and
`sendto` calls succeed, and the child handles a datagram as one step.  A session starts with the
client at the beginning of `copy_file`; the child is forked for a copy of the client's request.

`NetInv` is what the client and the network keep whatever the child does: every `DATA` datagram in
the network is the packet of some chunk the client has created, and a `FIN` is there only once the
client has left its data loop.
-/

namespace FortyTwoHundred.Ftp

/-- A file to send: its name is a C string, the text of the request fits the client's buffer, and
the size is below `2 ^ 63 - 1`. -/
structure Upload where
  name : Bytes
  content : Bytes
  nul : 0 ∉ name
  fits : (requestText name content.length).length < payloadSize
  small : (content.length : ℤ) < longMax

structure Session where
  client : Client Bytes
  child : Option Child
  /-- the file of the requested name in the server's directory -/
  disk : Option Bytes
  /-- history of the bytes the child has written -/
  output : Bytes
  /-- datagrams sent to the listening port, to the child and to the client -/
  requests : List Bytes
  toChild : List Bytes
  toClient : List Bytes

inductive SessionEv
  | clientSend (now : ℤ)
  | clientRecv (temp : Bytes) (r : Recv) (now : ℤ)
  | fork (d : Bytes)
  | child (i : ChildIn)

/-- A receive that fails, or gives a datagram of the network. -/
def Recv.inNet (net : List Bytes) : Recv → Bool
  | .got _ d => decide (d ∈ net)
  | .fail _ => true

namespace Session

/-- The calls of the child succeed, find the file that is there, and receive from the network. -/
def allows (s : Session) : ChildIn → Bool
  | .access found => found == s.disk.isSome
  | .send ok _ _ => ok
  | .poll _ _ _ r => r.inNet s.toChild
  | _ => true

/-- A step of the client; its requests go to the listening port, everything else to the child. -/
def clientStep (wanted : Addr) (s : Session) (i : ClientIn) : Option Session :=
  (s.client.step readFile wanted i).map fun p =>
    if s.client.pc = .reqSend then { s with client := p.1, requests := s.requests ++ p.2 }
    else { s with client := p.1, toChild := s.toChild ++ p.2 }

def childStep (origin : Addr) (s : Session) (i : ChildIn) : Option Session :=
  s.child.bind fun c =>
    if s.allows i then
      (c.atomic origin i).map fun p =>
        { s with
          child := some p.1
          disk := p.2.foldl Effect.onDisk s.disk
          output := s.output ++ p.2.flatMap Effect.appended
          toClient := s.toClient ++ p.2.filterMap Effect.sent }
    else none

def step (wanted origin : Addr) (s : Session) : SessionEv → Option Session
  | .clientSend now => s.clientStep wanted (.send (fun _ => true) now)
  | .clientRecv temp r now =>
    if r.inNet s.toClient then s.clientStep wanted (.recv temp r now) else none
  | .fork d =>
    if s.child.isNone ∧ d ∈ s.requests then some { s with child := some (Child.init d) } else none
  | .child i => s.childStep origin i

/-- The start of the client's `copy_file`; `disk` is the file that is there before, if there is
one. -/
def init (U : Upload) (disk : Option Bytes) (now : ℤ) : Session where
  client := Client.init U.content U.content.length U.name now
  child := none
  disk := disk
  output := []
  requests := []
  toChild := []
  toClient := []

/-! ## The client's side -/

structure NetInv (U : Upload) (s : Session) : Prop where
  window : Client.WindowInv U.content s.client
  request : s.client.request = requestPacket U.name U.content.length
  requests : ∀ d ∈ s.requests, d = requestPacket U.name U.content.length
  toChild : ∀ d ∈ s.toChild,
    (d = Client.finPacket ∧ s.client.left) ∨ ∃ i < s.client.created, d = dataPacket U.content i

section NetInv

variable {U : Upload} {s t : Session} {wanted origin : Addr}

theorem NetInv.clientStep (h : NetInv U s) {i : ClientIn} (hs : s.clientStep wanted i = some t) :
    NetInv U t := by
  obtain ⟨⟨c, out⟩, hstep, rfl⟩ := Option.map_eq_some_iff.mp hs
  have hw := h.window.step hstep
  have hreq := (Client.request_of_step hstep).trans h.request
  have hold : ∀ d ∈ s.toChild, (d = Client.finPacket ∧ c.left) ∨
      ∃ i < c.created, d = dataPacket U.content i := by
    intro d hd
    rcases h.toChild d hd with ⟨rfl, hl⟩ | ⟨i, hi, rfl⟩
    · exact Or.inl ⟨rfl, Client.left_of_step hl hstep⟩
    · exact Or.inr ⟨i, hi.trans_le (Client.created_le_of_step hstep), rfl⟩
  dsimp only
  split_ifs with hpc
  · refine ⟨hw, hreq, ?_, hold⟩
    intro d hd
    rcases List.mem_append.mp hd with hd | hd
    · exact h.requests d hd
    · rcases h.window.out hstep hd with ⟨-, rfl⟩ | ⟨hp, -⟩ | ⟨hp, -⟩
      · rw [h.request, sendPacket_requestPacket U.fits]
      · simp [hpc] at hp
      · simp [hpc] at hp
  · refine ⟨hw, hreq, h.requests, ?_⟩
    intro d hd
    rcases List.mem_append.mp hd with hd | hd
    · exact hold d hd
    · rcases h.window.out hstep hd with ⟨hp, -⟩ | ⟨-, hp⟩ | ⟨-, rfl, hl⟩
      · exact absurd hp hpc
      · exact Or.inr hp
      · exact Or.inl ⟨rfl, hl⟩

/-- What the child does changes nothing on the client's side. -/
theorem NetInv.of_eq (h : NetInv U s) (hc : t.client = s.client) (hr : t.requests = s.requests)
    (hn : t.toChild = s.toChild) : NetInv U t := by
  refine ⟨?_, ?_, ?_, ?_⟩
  · rw [hc]; exact h.window
  · rw [hc]; exact h.request
  · rw [hr]; exact h.requests
  · rw [hn, hc]; exact h.toChild

theorem childStep_frame {i : ChildIn} (hs : s.childStep origin i = some t) :
    t.client = s.client ∧ t.requests = s.requests ∧ t.toChild = s.toChild := by
  obtain ⟨c, -, h⟩ := Option.bind_eq_some_iff.mp hs
  split_ifs at h
  obtain ⟨p, -, rfl⟩ := Option.map_eq_some_iff.mp h
  exact ⟨rfl, rfl, rfl⟩

theorem NetInv.step (h : NetInv U s) {e : SessionEv} (hs : s.step wanted origin e = some t) :
    NetInv U t := by
  cases e with
  | clientSend now => exact h.clientStep hs
  | clientRecv temp r now =>
    simp only [Session.step] at hs
    split_ifs at hs
    exact h.clientStep hs
  | fork d =>
    simp only [Session.step] at hs
    split_ifs at hs
    rw [← Option.some.inj hs]
    exact h.of_eq rfl rfl rfl
  | child i =>
    obtain ⟨h1, h2, h3⟩ := childStep_frame hs
    exact h.of_eq h1 h2 h3

theorem NetInv.isPacket (h : NetInv U s) {d : Bytes} (hd : d ∈ s.toChild) : IsPacket d := by
  rcases h.toChild d hd with ⟨rfl, -⟩ | ⟨i, -, rfl⟩
  · exact .createPacket (Nat.zero_le _) (Nat.zero_le _)
  · exact isPacket_dataPacket _ _

theorem NetInv.data (h : NetInv U s) {d : Bytes} (hd : d ∈ s.toChild) (hcmd : command d = cmdData) :
    ∃ i < s.client.created, d = dataPacket U.content i := by
  rcases h.toChild d hd with ⟨rfl, -⟩ | hi
  · simp [Client.finPacket, cmdFin, cmdData] at hcmd
  · exact hi

theorem NetInv.init (U : Upload) (disk : Option Bytes) (now : ℤ) : NetInv U (init U disk now) :=
  ⟨Client.WindowInv.init U.content U.name now, rfl, by simp [Session.init], by simp [Session.init]⟩

end NetInv

/-- A file of one byte named `a`. -/
def oneByte : Upload := ⟨[97], [42], by decide, by decide, by decide⟩

/-- The transfer of that byte up to the client's closing loop; all within one second. -/
def oneByteTransfer : List SessionEv :=
  [.clientSend 0, .fork (requestPacket [97] 1), .child (.setup true), .child (.access false),
    .child (.fopen true 0),
    .child (.send true false 0), .clientRecv [] (.got ⟨[]⟩ (ackPacket 1)) 0, .clientSend 0,
    .child (.poll 0 [] (fun _ => 0) (.got ⟨[]⟩ (dataPacket [42] 0))), .clientRecv []
      (.got ⟨[]⟩ (ackPacket 2)) 0,
    .clientRecv [] (.fail .again) 0, .clientSend 0]

end Session

end FortyTwoHundred.Ftp
