import FortyTwoHundred.Ftp.Serves
import FortyTwoHundred.Ftp.Handshake

/-!
# Site — many clients and one server

The whole of it: any number of clients, each with a file of its own, the listener with a child for
every datagram, and one directory.  The network keeps every datagram that was ever sent; it may
deliver each of them late, more than once, in any order or not at all.  Every call of a client or a
child is a step, and all of them interleave; every `sendto`, `fopen` and `fwrite` may fail.  The
listener gets datagrams of others too, and their children receive whatever they like.

A client sends its request to the listening port until it has a reply; from then on it sends to the
child the reply came from.  Several children may have been forked for one client.

`Sending` is what the clients keep: what is on its way to a child are packets of the one client that
sends to it.  `Serving` is what the children keep: each of them works as it would alone, and has a
beginning of its client's file.  Together they give what the site is for (`uploads`), where `stdio`
adds the streams of the children.
-/

namespace FortyTwoHundred.Ftp

open Chunk

/-! ## The clients, the server and the network -/

structure Site where
  clients : ℕ → Client Bytes
  /-- the child that client `j` has a reply from, and sends to -/
  target : ℕ → Option ℕ
  server : Shared
  /-- the client that child `k` was forked for; `none`: somebody else -/
  peer : ℕ → Option ℕ
  /-- child `k` was ended by a `SIGINT` -/
  stopped : ℕ → Bool
  /-- datagrams of client `j` to the listening port, datagrams to child `k`, and those of children
  to client `j` -/
  requests : ℕ → List Bytes
  toChild : ℕ → List Bytes
  toClient : ℕ → List (ℕ × Bytes)

inductive SiteEv
  | clientSend (j : ℕ) (sendto : Bytes → Bool) (now : ℤ)
  /-- a datagram of child `k`, and a receive that fails -/
  | clientGot (j : ℕ) (temp : Bytes) (k : ℕ) (d : Bytes) (now : ℤ)
  | clientFail (j : ℕ) (temp : Bytes) (errno : Errno) (now : ℤ)
  /-- the listener receives a datagram of client `j`, or of somebody else -/
  | fork (j : Option ℕ) (d : Bytes)
  | child (k : ℕ) (i : ChildIn)
  | interrupt (k : ℕ)

namespace Site

/-- A step of client `j`, with the child whose datagram it receives.  The receive of
`complete_request` stores the source in `target`. -/
def clientStep (wanted : ℕ → Addr) (s : Site) (j : ℕ) (src : Option ℕ) (i : ClientIn) :
    Option Site :=
  ((s.clients j).step readFile (wanted j) i).map fun p =>
    let t := { s with
      clients := Function.update s.clients j p.1
      target := if (s.clients j).pc = ClientPc.reqRecv then Function.update s.target j src
        else s.target }
    match s.target j with
    | none => { t with requests := Function.update s.requests j (s.requests j ++ p.2) }
    | some k => { t with toChild := Function.update s.toChild k (s.toChild k ++ p.2) }

/-- The datagram was sent to the listening port. -/
def asks (s : Site) : Option ℕ → Bytes → Bool
  | none, _ => true
  | some j, d => decide (d ∈ s.requests j)

/-- A child receives what was sent to it; that of somebody else receives anything. -/
def reaches (s : Site) (k : ℕ) : ChildIn → Bool
  | .poll _ _ _ r => (s.peer k).isNone || r.inNet (s.toChild k)
  | _ => true

/-- The datagrams child `k` sends go to its peer. -/
def answer (s : Site) (k : ℕ) (ds : List Bytes) : ℕ → List (ℕ × Bytes) :=
  match s.peer k with
  | none => s.toClient
  | some j => Function.update s.toClient j (s.toClient j ++ ds.map (k, ·))

/-- Child `k` has not come to an end. -/
def runs (s : Site) (k : ℕ) : Bool :=
  !s.stopped k && match s.server.children k with
    | none => false
    | some c => match c.pc with
      | .done _ => false
      | _ => true

def step (addr wanted origin : ℕ → Addr) (s : Site) : SiteEv → Option Site
  | .clientSend j sendto now => s.clientStep wanted j none (.send sendto now)
  | .clientGot j temp k d now =>
    if (k, d) ∈ s.toClient j then s.clientStep wanted j (some k) (.recv temp (.got (addr k) d) now)
      else none
  | .clientFail j temp errno now => s.clientStep wanted j none (.recv temp (.fail errno) now)
  | .fork j d =>
    -- an empty datagram is ignored
    if s.asks j d ∧ d ≠ [] then
      (s.server.step origin (.fork d)).map fun t =>
        { s with server := t, peer := Function.update s.peer s.server.forked j }
    else none
  | .child k i =>
    if s.stopped k = false ∧ s.reaches k i then
      (s.server.step origin (.child k i)).map fun t =>
        { s with server := t, toClient := s.answer k (s.server.replies origin (.child k i)) }
    else none
  -- the handler exits with status `0` wherever the child is, and unlinks nothing
  | .interrupt k =>
    if s.runs k then some { s with stopped := Function.update s.stopped k true } else none

/-- Every client at the start of `copy_file`, no child yet, and the directory as it is. -/
def init (U : ℕ → Upload) (now : ℕ → ℤ) (server : Shared) : Site where
  clients j := Client.init (U j).content (U j).content.length (U j).name (now j)
  target _ := none
  server := server
  peer _ := none
  stopped _ := false
  requests _ := []
  toChild _ := []
  toClient _ := []

/-- Child `k` was forked for client `j`. -/
def Forked (s : Site) (j k : ℕ) : Prop := s.peer k = some j ∧ k < s.server.forked

/-- A child of client `j` is in its closing loop or has returned `0`. -/
def Closed (s : Site) (j : ℕ) : Prop := ∃ k c, s.Forked j k ∧ s.server.children k = some c ∧
    c.Closing

/-- An `fopen` that succeeds finds its name absent, and a client does not end its closing loop
without a `FINACK` before a child of it is in its own. -/
def Confirmed (s : Site) : SiteEv → Prop
  | .clientSend j _ now => (s.clients j).pc = .finTop → ¬ now - (s.clients j).lastACK < ackTimeout →
      s.Closed j
  | .clientFail j temp _ _ => (s.clients j).pc = .finRecv → command temp = cmdFinAck → s.Closed j
  | .child k i => s.server.Absent (.child k i)
  | _ => True

/-! ## The clients' side -/

/-- What the clients and the network keep whatever the children do. -/
structure Sending (U : ℕ → Upload) (s : Site) : Prop where
  window : ∀ j, Client.WindowInv (U j).content (s.clients j)
  request : ∀ j, (s.clients j).request = requestPacket (U j).name (U j).content.length
  requests : ∀ j, ∀ d ∈ s.requests j, d = requestPacket (U j).name (U j).content.length
  asking : ∀ j, s.target j = none →
    (s.clients j).pc = .reqSend ∨ (s.clients j).pc = .reqRecv ∨ ∃ e, (s.clients j).pc = .done e
  chosen : ∀ j k, s.target j = some k → (s.clients j).InData ∧ s.Forked j k
  toChild : ∀ k, ∀ d ∈ s.toChild k, ∃ j, s.Forked j k ∧
    ((d = Client.finPacket ∧ (s.clients j).left) ∨
    ∃ i < (s.clients j).created, d = dataPacket (U j).content i)

section Steps

variable {U : ℕ → Upload} {s t : Site} {addr wanted origin : ℕ → Addr}

/-- A client's step: what it changes, and what it sends where. -/
theorem clientStep_inv {j : ℕ} {src : Option ℕ} {i : ClientIn}
    (hs : s.clientStep wanted j src i = some t) :
    ∃ c out, (s.clients j).step readFile (wanted j) i = some (c, out) ∧
      t.clients = Function.update s.clients j c ∧
      t.target = (if (s.clients j).pc = ClientPc.reqRecv then Function.update s.target j src
        else s.target) ∧
      t.server = s.server ∧ t.peer = s.peer ∧ t.toClient = s.toClient ∧
      (∀ l, ∀ d ∈ t.requests l, d ∈ s.requests l ∨ l = j ∧ d ∈ out ∧ s.target j = none) ∧
      ∀ k, ∀ d ∈ t.toChild k, d ∈ s.toChild k ∨ d ∈ out ∧ s.target j = some k := by
  obtain ⟨⟨c, out⟩, hstep, rfl⟩ := Option.map_eq_some_iff.mp hs
  refine ⟨c, out, hstep, ?_⟩
  have happend : ∀ (f : ℕ → List Bytes) (l m : ℕ), ∀ d ∈ Function.update f m (f m ++ out) l,
      d ∈ f l ∨ l = m ∧ d ∈ out := by
    intro f l m d hd
    by_cases hl : l = m
    · subst hl
      rw [Function.update_self, List.mem_append] at hd
      exact hd.imp_right fun h => ⟨rfl, h⟩
    · rw [Function.update_of_ne hl] at hd
      exact Or.inl hd
  cases htarget : s.target j with
  | none =>
    refine ⟨rfl, rfl, rfl, rfl, rfl, fun l d hd => ?_, fun k d hd => Or.inl hd⟩
    exact (happend s.requests l j d hd).imp_right fun h => ⟨h.1, h.2, rfl⟩
  | some m =>
    refine ⟨rfl, rfl, rfl, rfl, rfl, fun l d hd => Or.inl hd, fun k d hd => ?_⟩
    exact (happend s.toChild k m d hd).imp_right fun h => ⟨h.2, by rw [h.1]⟩

/-- After the request the client waits for a reply, or has ended. -/
theorem pc_of_reqSend {c d : Client Bytes} {a : Addr} {i : ClientIn} {out : List Bytes}
    (hs : c.step readFile a i = some (d, out)) (hpc : c.pc = .reqSend) :
    d.pc = .reqRecv ∨ ∃ e, d.pc = .done e := by
  cases Client.trans_of_step hs with
  | request _ _ => exact Or.inl rfl
  | noRequest _ => exact Or.inr ⟨_, rfl⟩
  | _ => simp_all

/-- A receive that fails sends the client back to its request, or ends it; any other takes it
further. -/
theorem pc_of_reqRecv {c d : Client Bytes} {a : Addr} {i : ClientIn} {out : List Bytes}
    (hs : c.step readFile a i = some (d, out)) (hpc : c.pc = .reqRecv) :
    ∃ temp r now, i = .recv temp r now ∧
      (r.ret < 0 → d.pc = .reqSend ∨ ∃ e, d.pc = .done e) ∧ (0 ≤ r.ret → d.InData) := by
  cases Client.trans_of_step hs with
  | @reply temp r now _ =>
    refine ⟨temp, r, now, rfl, fun hr => ?_, fun hr => ?_⟩
    · rw [Client.recvReply]
      dsimp only
      split_ifs with h1 h2
      · exact Or.inl rfl
      · exact Or.inr ⟨_, rfl⟩
      · omega
    · rw [Client.recvReply]
      dsimp only
      rw [if_neg (by omega)]
      split_ifs
      · exact ⟨by simp [Client.finish], by simp [Client.finish]⟩
      · rw [Client.reply]
        split_ifs
        · exact Client.InData.loopTop _ _
        · exact ⟨by simp [Client.finish], by simp [Client.finish]⟩
        · exact ⟨by simp [Client.finish], by simp [Client.finish]⟩
        · exact Client.InData.loopTop _ _
  | _ => simp_all

/-- The packets a client has created stay created, and a client that has left its data loop does not
come back. -/
theorem grows_of_clientStep {j : ℕ} {src : Option ℕ} {i : ClientIn}
    (hs : s.clientStep wanted j src i = some t) (l : ℕ) :
    (s.clients l).created ≤ (t.clients l).created ∧ ((s.clients l).left → (t.clients l).left) := by
  obtain ⟨c, out, hstep, hclients, -⟩ := clientStep_inv hs
  rw [hclients]
  by_cases hl : l = j
  · subst hl
    rw [Function.update_self]
    exact ⟨Client.created_le_of_step hstep, fun hleft => Client.left_of_step hleft hstep⟩
  · rw [Function.update_of_ne hl]
    exact ⟨le_rfl, id⟩

/-- **A client's step**: what it sends to the listening port are requests, what it sends to a child
are packets of its file. -/
theorem Sending.clientStep (h : Sending U s) {j : ℕ} {src : Option ℕ} {i : ClientIn}
    (hsrc : ∀ temp r now, i = .recv temp r now → (0 ≤ r.ret ↔ src.isSome))
    (hfork : ∀ k, src = some k → s.Forked j k) (hs : s.clientStep wanted j src i = some t) :
    Sending U t := by
  have hgrows := grows_of_clientStep hs
  obtain ⟨c, out, hstep, hclients, htarget, hserver, hpeer, -, hrequests, htoChild⟩ :=
    clientStep_inv hs
  have hforked : ∀ {l k}, s.Forked l k → t.Forked l k := by
    intro l k hk
    rw [Forked, hserver, hpeer]
    exact hk
  have hself : t.clients j = c := by rw [hclients, Function.update_self]
  have hother : ∀ {l}, l ≠ j → t.clients l = s.clients l :=
    fun hl => by rw [hclients, Function.update_of_ne hl]
  have htother : ∀ {l}, l ≠ j → t.target l = s.target l := fun hl => by
    rw [htarget]
    split_ifs
    · exact Function.update_of_ne hl _ _
    · rfl
  refine ⟨fun l => ?_, fun l => ?_, fun l d hd => ?_, fun l hl => ?_, fun l k hl => ?_,
    fun k d hd => ?_⟩
  · by_cases hl : l = j
    · subst hl
      rw [hself]
      exact (h.window l).step hstep
    · rw [hother hl]
      exact h.window l
  · by_cases hl : l = j
    · subst hl
      rw [hself]
      exact (Client.request_of_step hstep).trans (h.request l)
    · rw [hother hl]
      exact h.request l
  · rcases hrequests l d hd with hd | ⟨rfl, hd, hnone⟩
    · exact h.requests l d hd
    · rcases (h.window l).out hstep hd with ⟨-, rfl⟩ | ⟨hp, -⟩ | ⟨hp, -⟩
      · rw [h.request, sendPacket_requestPacket (U l).fits]
      · rcases h.asking l hnone with hq | hq | ⟨e, hq⟩ <;> simp [hp] at hq
      · rcases h.asking l hnone with hq | hq | ⟨e, hq⟩ <;> simp [hp] at hq
  · by_cases hlj : l = j
    · subst hlj
      rw [hself]
      by_cases hpc : (s.clients l).pc = .reqRecv
      · rw [htarget, if_pos hpc, Function.update_self] at hl
        obtain ⟨temp, r, now, rfl, hneg, -⟩ := pc_of_reqRecv hstep hpc
        have hret : ¬ 0 ≤ r.ret := by simp [hsrc _ _ _ rfl, hl]
        rcases hneg (by omega) with hp | hp
        · exact Or.inl hp
        · exact Or.inr (Or.inr hp)
      · rw [htarget, if_neg hpc] at hl
        rcases h.asking l hl with hp | hp | ⟨e, hp⟩
        · exact Or.inr (pc_of_reqSend hstep hp)
        · exact absurd hp hpc
        · cases Client.trans_of_step hstep <;> simp_all
    · rw [hother hlj]
      exact h.asking l ((htother hlj).symm.trans hl)
  · by_cases hlj : l = j
    · subst hlj
      rw [hself]
      by_cases hpc : (s.clients l).pc = .reqRecv
      · rw [htarget, if_pos hpc, Function.update_self] at hl
        obtain ⟨temp, r, now, rfl, -, hpos⟩ := pc_of_reqRecv hstep hpc
        exact ⟨hpos ((hsrc _ _ _ rfl).mpr (by simp [hl])), hforked (hfork k hl)⟩
      · rw [htarget, if_neg hpc] at hl
        exact ⟨(h.chosen l k hl).1.step hstep, hforked (h.chosen l k hl).2⟩
    · rw [hother hlj]
      obtain ⟨hdata, hk⟩ := h.chosen l k ((htother hlj).symm.trans hl)
      exact ⟨hdata, hforked hk⟩
  · rcases htoChild k d hd with hd | ⟨hd, hsome⟩
    · obtain ⟨l, hk, hd⟩ := h.toChild k d hd
      refine ⟨l, hforked hk, ?_⟩
      rcases hd with ⟨rfl, hleft⟩ | ⟨n, hn, rfl⟩
      · exact Or.inl ⟨rfl, (hgrows l).2 hleft⟩
      · exact Or.inr ⟨n, hn.trans_le (hgrows l).1, rfl⟩
    · obtain ⟨hdata, hk⟩ := h.chosen j k hsome
      refine ⟨j, hforked hk, ?_⟩
      rw [hself]
      rcases (h.window j).out hstep hd with ⟨hp, -⟩ | ⟨-, hp⟩ | ⟨-, rfl, hl⟩
      · exact absurd hp hdata.1
      · exact Or.inr hp
      · exact Or.inl ⟨rfl, hl⟩

theorem Sending.of_eq (h : Sending U s) (hc : t.clients = s.clients) (ht : t.target = s.target)
    (hr : t.requests = s.requests) (hn : t.toChild = s.toChild)
    (hf : ∀ j k, s.Forked j k → t.Forked j k) : Sending U t := by
  refine ⟨?_, ?_, ?_, ?_, ?_, ?_⟩
  · rw [hc]; exact h.window
  · rw [hc]; exact h.request
  · rw [hr]; exact h.requests
  · rw [hc, ht]; exact h.asking
  · rw [hc, ht]
    intro j k hk
    exact ⟨(h.chosen j k hk).1, hf j k (h.chosen j k hk).2⟩
  · rw [hc, hn]
    intro k d hd
    obtain ⟨j, hk, hd⟩ := h.toChild k d hd
    exact ⟨j, hf j k hk, hd⟩

theorem Sending.isPacket (h : Sending U s) {k : ℕ} {d : Bytes} (hd : d ∈ s.toChild k) :
    IsPacket d := by
  obtain ⟨j, -, ⟨rfl, -⟩ | ⟨i, -, rfl⟩⟩ := h.toChild k d hd
  · exact .createPacket (Nat.zero_le _) (Nat.zero_le _)
  · exact isPacket_dataPacket _ _

/-- A `DATA` datagram with the number a child expects is the packet it expects. -/
theorem Sending.next (h : Sending U s) (hcount : ∀ j, chunkCount (U j).content + 49 < 65536)
    {j k : ℕ} {x : Solo}
    (hpeer : s.peer k = some j) (hx : x.Serves (U j) (s.clients j).created) {i : ChildIn}
    (hin : s.reaches k i = true) : Solo.Next (U j) (s.clients j).created x.child i := by
  cases i with
  | poll now temp beyond r =>
    cases r with
    | got src d =>
      have hd : d ∈ s.toChild k := by simpa [reaches, hpeer, Recv.inNet] using hin
      refine ⟨h.isPacket hd, fun hcmd hseq => ?_⟩
      obtain ⟨l, hk, ⟨rfl, -⟩ | ⟨n, hn, rfl⟩⟩ := h.toChild k d hd
      · simp [Client.finPacket, cmdFin, cmdData] at hcmd
      · obtain rfl : j = l := Option.some.inj (hpeer.symm.trans hk.1)
        have hpad := (h.window j).padding
        have hbound := hx.bound
        have hc := hcount j
        have hw : windowSize = 50 := rfl
        rw [getSeqNum_dataPacket, hx.expected, SeqNum.ofNat_eq_iff] at hseq
        obtain rfl : n = x.child.accepted.length := by omega
        exact ⟨rfl, hn⟩
    | fail errno => trivial
  | _ => trivial

/-! ## The server's side -/

/-- The children with their files, and what they have sent. -/
structure Serving (U : ℕ → Upload) (s : Site) (a : Apart) : Prop where
  dir : s.server.Inv
  alone : s.server.Matches a
  serves : ∀ {k x j}, a.solos k = some x → s.peer k = some j → x.Serves (U j) (s.clients j).created
  replies : ∀ j, ∀ p ∈ s.toClient j, s.Forked j p.1 ∧
    ((p.2 = finAckPacket ∧ s.Closed j) ∨ ∃ cmd q, cmd ≠ cmdFinAck ∧ p.2 = createPacket cmd q 0 [])

theorem Serving.lt_forked {a : Apart} (h : Serving U s a) {k : ℕ} {c : Child}
    (hc : s.server.children k = some c) : k < s.server.forked := by
  by_contra hk
  rw [(h.dir.unborn k (not_lt.mp hk)).1] at hc
  cases hc

/-- A client's step leaves the children as they are. -/
theorem Serving.clientStep {a : Apart} (h : Serving U s a) {j : ℕ} {src : Option ℕ} {i : ClientIn}
    (hs : s.clientStep wanted j src i = some t) : Serving U t a := by
  have hgrows := grows_of_clientStep hs
  obtain ⟨c, out, -, -, -, hserver, hpeer, htoClient, -⟩ := clientStep_inv hs
  refine ⟨by rw [hserver]; exact h.dir, by rw [hserver]; exact h.alone, fun {k x l} hx hk => ?_,
    fun l p hp => ?_⟩
  · rw [hpeer] at hk
    exact (h.serves hx hk).mono (hgrows l).1
  · rw [htoClient] at hp
    simp only [Forked, Closed, hserver, hpeer]
    exact h.replies l p hp

/-- **The listener forks a child**; if it is for a datagram of a client, that is the client's
request. -/
theorem fork_inv {j : Option ℕ} {d : Bytes} (hs : s.step addr wanted origin (.fork j d) = some t) :
    s.asks j d = true ∧ t = { s with
      server := { s.server with
        children := Function.update s.server.children s.server.forked (some (Child.init d))
        forked := s.server.forked + 1 }
      peer := Function.update s.peer s.server.forked j } := by
  simp only [Site.step] at hs
  split_ifs at hs with hask
  obtain ⟨u, hu, rfl⟩ := Option.map_eq_some_iff.mp hs
  obtain rfl := Option.some.inj hu
  exact ⟨hask.1, rfl⟩

/-- The children that were there before a fork. -/
theorem forked_fork {j : Option ℕ} {d : Bytes} (hs : s.step addr wanted origin (.fork j d) = some t)
    {l k : ℕ} (hk : s.Forked l k) : t.Forked l k ∧ t.server.children k = s.server.children k := by
  obtain ⟨-, rfl⟩ := fork_inv hs
  have hne : k ≠ s.server.forked := hk.2.ne
  refine ⟨⟨?_, hk.2.trans (Nat.lt_succ_self _)⟩, Function.update_of_ne hne _ _⟩
  show Function.update s.peer s.server.forked j k = some l
  rw [Function.update_of_ne hne]
  exact hk.1

theorem Closed.fork {j : Option ℕ} {d : Bytes} (hs : s.step addr wanted origin (.fork j d) = some t)
    {l : ℕ} (h : s.Closed l) : t.Closed l := by
  obtain ⟨k, c, hk, hc, hcl⟩ := h
  obtain ⟨hk', hchildren⟩ := forked_fork hs hk
  exact ⟨k, c, hk', hchildren.trans hc, hcl⟩

theorem Serving.fork {a : Apart} (hsend : Sending U s) (h : Serving U s a)
    {j : Option ℕ} {d : Bytes} (hs : s.step addr wanted origin (.fork j d) = some t) :
    ∃ b, Serving U t b := by
  have hforked : ∀ {l k}, s.Forked l k → t.Forked l k := fun hk => (forked_fork hs hk).1
  have hclosed : ∀ {l}, s.Closed l → t.Closed l := fun hl => hl.fork hs
  obtain ⟨hask, rfl⟩ := fork_inv hs
  refine ⟨_, h.dir.fork d, h.alone.fork d, fun {k x l} hx hk => ?_, fun l p hp => ?_⟩
  · dsimp only at hx hk ⊢
    rw [h.alone.forked] at hk
    by_cases hkf : k = a.forked
    · subst hkf
      rw [Function.update_self] at hx hk
      subst hk
      rw [← Option.some.inj hx, hsend.requests l d (by simpa [asks] using hask)]
      exact Solo.Serves.init (U l) _
    · rw [Function.update_of_ne hkf] at hx hk
      exact h.serves hx hk
  · obtain ⟨hk, hp⟩ := h.replies l p hp
    exact ⟨hforked hk, hp.imp_left fun ⟨he, hl⟩ => ⟨he, hclosed hl⟩⟩

theorem child_inv {k : ℕ} {i : ChildIn} (hs : s.step addr wanted origin (.child k i) = some t) :
    ∃ c d effs, (s.stopped k = false ∧ s.reaches k i = true) ∧ s.server.children k = some c ∧
    c.step (origin k) i = some (d, effs) ∧
      s.server.step origin (.child k i) = some t.server ∧
      t = { s with
        server := { s.server with
          children := Function.update s.server.children k (some d)
          fs := effs.foldl (Effect.onFiles k c.filename) s.server.fs }
        toClient := s.answer k (effs.filterMap Effect.sent) } := by
  simp only [Site.step] at hs
  split_ifs at hs with hreach
  obtain ⟨u, hu, rfl⟩ := Option.map_eq_some_iff.mp hs
  obtain ⟨c, d, effs, hc, -, hstep, rfl⟩ := Shared.step_child hu
  refine ⟨c, d, effs, hreach, hc, hstep, hu, ?_⟩
  rw [Shared.replies, hc, Option.bind_some, hstep]

theorem mem_answer {k l : ℕ} {ds : List Bytes} {p : ℕ × Bytes} (hp : p ∈ s.answer k ds l) :
    p ∈ s.toClient l ∨ s.peer k = some l ∧ p.1 = k ∧ p.2 ∈ ds := by
  cases hj : s.peer k with
  | none =>
    simp only [answer, hj] at hp
    exact Or.inl hp
  | some j =>
    simp only [answer, hj] at hp
    by_cases hl : l = j
    · subst hl
      rw [Function.update_self] at hp
      rcases List.mem_append.mp hp with hp | hp
      · exact Or.inl hp
      · obtain ⟨m, hm, rfl⟩ := List.mem_map.mp hp
        exact Or.inr ⟨rfl, rfl, hm⟩
    · rw [Function.update_of_ne hl] at hp
      exact Or.inl hp

theorem mem_sent {effs : List Effect} {m : Bytes} (hm : m ∈ effs.filterMap Effect.sent) :
    Effect.send m ∈ effs := by
  obtain ⟨e, he, hem⟩ := List.mem_filterMap.mp hm
  cases e with
  | send m' =>
    obtain rfl : m' = m := by simpa [Effect.sent] using hem
    exact he
  | _ => simp [Effect.sent] at hem

theorem Closed.child {k : ℕ} {i : ChildIn} (hs : s.step addr wanted origin (.child k i) = some t)
    {l : ℕ} (h : s.Closed l) : t.Closed l := by
  obtain ⟨m, c, hm, hc, hcl⟩ := h
  obtain ⟨b, d, effs, -, hb, hstep, -, rfl⟩ := child_inv hs
  by_cases hmk : m = k
  · subst hmk
    obtain rfl := Option.some.inj (hc.symm.trans hb)
    exact ⟨m, d, hm, Function.update_self _ _ _, hcl.trans (Child.trans_of_step hstep)⟩
  · exact ⟨m, c, hm, (Function.update_of_ne hmk _ _).trans hc, hcl⟩

theorem Serving.child {a : Apart} (hcount : ∀ j, chunkCount (U j).content + 49 < 65536)
    (hsend : Sending U s) (h : Serving U s a) {k : ℕ} {i : ChildIn}
    (habs : s.server.Absent (.child k i)) (hs : s.step addr wanted origin (.child k i) = some t) :
    ∃ b, Serving U t b := by
  have hclosed : ∀ {l}, s.Closed l → t.Closed l := fun hl => hl.child hs
  obtain ⟨c, d, effs, hreach, hc, hstep, hserver, rfl⟩ := child_inv hs
  have htrans := Child.trans_of_step hstep
  obtain ⟨b, hb, hmatch⟩ := h.alone.step h.dir habs hserver
  obtain ⟨x, hx, hb⟩ := Option.bind_eq_some_iff.mp hb
  obtain ⟨y, hy, rfl⟩ := Option.map_eq_some_iff.mp hb
  have hxc : x.child = c := by
    have hk := h.alone.children k
    rw [hc, hx, Option.map_some] at hk
    exact (Option.some.inj hk).symm
  refine ⟨_, h.dir.step habs hserver, hmatch, fun {m z l} hz hm => ?_, fun l p hp => ?_⟩
  · dsimp only at hz hm ⊢
    by_cases hmk : m = k
    · subst hmk
      rw [Function.update_self] at hz
      obtain rfl := Option.some.inj hz
      have hserves := h.serves hx hm
      exact hserves.step (hsend.next hcount hm hserves hreach.2) hy
    · rw [Function.update_of_ne hmk] at hz
      exact h.serves hz hm
  · rcases mem_answer hp with hp | ⟨hpeer, rfl, hnew⟩
    · obtain ⟨hk, hp⟩ := h.replies l p hp
      exact ⟨hk, hp.imp_left fun ⟨he, hl⟩ => ⟨he, hclosed hl⟩⟩
    · refine ⟨⟨hpeer, h.lt_forked hc⟩, ?_⟩
      rcases htrans.sent (mem_sent hnew) with ⟨cmd, status, hpc, hm⟩ | ⟨q, hm⟩ | ⟨hm, u, hpc⟩
      · have hst := (h.serves hx hpeer).stage
        rw [← hxc] at hpc
        simp only [Solo.Stage, hpc] at hst
        exact Or.inr ⟨cmd, 0, hst.2, hm⟩
      · exact Or.inr ⟨cmdAck, q, by decide, hm⟩
      · exact Or.inl ⟨hm, p.1, d, ⟨hpeer, h.lt_forked hc⟩, Function.update_self _ _ _,
          Or.inr (Or.inl ⟨u, hpc⟩)⟩

theorem interrupt_inv {k : ℕ} (hs : s.step addr wanted origin (.interrupt k) = some t) :
    s.runs k = true ∧ t = { s with stopped := Function.update s.stopped k true } := by
  simp only [Site.step] at hs
  split_ifs at hs with hruns
  exact ⟨hruns, (Option.some.inj hs).symm⟩

/-! ## Runs -/

structure Inv (U : ℕ → Upload) (s : Site) : Prop where
  sending : Sending U s
  serving : ∃ a, Serving U s a
  agreed : ∀ j, (s.clients j).pc = .done (.returned .ok) → s.Closed j

theorem Inv.clientStep (h : Inv U s) {j : ℕ} {src : Option ℕ} {i : ClientIn}
    (hsrc : ∀ temp r now, i = .recv temp r now → (0 ≤ r.ret ↔ src.isSome))
    (hfork : ∀ k, src = some k → s.Forked j k)
    (hok : ∀ c out, (s.clients j).step readFile (wanted j) i = some (c, out) →
      c.pc = .done (.returned .ok) → s.Closed j)
    (hs : s.clientStep wanted j src i = some t) : Inv U t := by
  obtain ⟨a, ha⟩ := h.serving
  refine ⟨h.sending.clientStep hsrc hfork hs, ⟨a, ha.clientStep hs⟩, fun l hl => ?_⟩
  obtain ⟨c, out, hstep, hclients, -, hserver, hpeer, -⟩ := clientStep_inv hs
  simp only [Closed, Forked, hserver, hpeer]
  rw [hclients] at hl
  by_cases hlj : l = j
  · subst hlj
    rw [Function.update_self] at hl
    exact hok c out hstep hl
  · rw [Function.update_of_ne hlj] at hl
    exact h.agreed l hl

/-- A `FINACK` that a client receives was sent by a child of it. -/
theorem Inv.finAck (h : Inv U s) {j k : ℕ} {d temp : Bytes} {a : Addr} (hd : (k, d) ∈ s.toClient j)
    (hcmd : command (overlay (Recv.got a d).stored temp) = cmdFinAck) : s.Closed j := by
  obtain ⟨b, hb⟩ := h.serving
  have hpk : ∀ cmd q, IsPacket (createPacket cmd q 0 []) := fun cmd q =>
      .createPacket (Nat.zero_le _) (Nat.zero_le _)
  rcases (hb.replies j _ hd).2 with ⟨-, hcl⟩ | ⟨cmd, q, hne, rfl⟩
  · exact hcl
  · rw [Recv.stored, (hpk cmd q).take_packetSize, (hpk cmd q).command_overlay, command_createPacket]
      at hcmd
    exact absurd hcmd hne

/-- **Every step** in which the condition holds keeps the whole site as it should be. -/
theorem Inv.step (hcount : ∀ j, chunkCount (U j).content + 49 < 65536) (h : Inv U s) {e : SiteEv}
    (hok : Confirmed s e) (hs : s.step addr wanted origin e = some t) : Inv U t := by
  cases e with
  | clientSend j sendto now =>
    refine h.clientStep (fun _ _ _ hi => by cases hi) (fun k hk => by cases hk) ?_ hs
    intro c out hstep hpc
    rcases Session.returned_ok hstep hpc with ⟨hfin, _, _, hi, ht⟩ | ⟨_, _, _, _, hi, _⟩
    · obtain ⟨-, rfl⟩ := ClientIn.send.inj hi
      exact hok hfin ht
    · cases hi
  | clientGot j temp k d now =>
    simp only [Site.step] at hs
    split_ifs at hs with hd
    obtain ⟨a, ha⟩ := h.serving
    refine h.clientStep ?_ ?_ ?_ hs
    · rintro temp' r now' hi
      obtain ⟨-, rfl, -⟩ := ClientIn.recv.inj hi
      simp [Recv.ret]
    · rintro m hm
      obtain rfl := Option.some.inj hm
      exact (ha.replies j _ hd).1
    · intro c out hstep hpc
      rcases Session.returned_ok hstep hpc with ⟨_, _, _, hi, _⟩ | ⟨_, _, _, _, hi, hcmd⟩
      · cases hi
      · obtain ⟨rfl, rfl, rfl⟩ := ClientIn.recv.inj hi
        exact h.finAck hd hcmd
  | clientFail j temp errno now =>
    refine h.clientStep ?_ (fun k hk => by cases hk) ?_ hs
    · rintro temp' r now' hi
      obtain ⟨-, rfl, -⟩ := ClientIn.recv.inj hi
      simp [Recv.ret]
    · intro c out hstep hpc
      rcases Session.returned_ok hstep hpc with ⟨_, _, _, hi, _⟩ | ⟨hfin, _, _, _, hi, hcmd⟩
      · cases hi
      · obtain ⟨rfl, rfl, rfl⟩ := ClientIn.recv.inj hi
        exact hok hfin (by simpa [Recv.stored, overlay] using hcmd)
  | fork j d =>
    obtain ⟨a, ha⟩ := h.serving
    refine ⟨?_, ha.fork h.sending hs, fun l hl => ?_⟩
    · have hforked : ∀ l k, s.Forked l k → t.Forked l k := fun l k hk => (forked_fork hs hk).1
      obtain ⟨-, rfl⟩ := fork_inv hs
      exact h.sending.of_eq rfl rfl rfl rfl hforked
    · refine Closed.fork hs (h.agreed l ?_)
      obtain ⟨-, rfl⟩ := fork_inv hs
      exact hl
  | child k i =>
    obtain ⟨a, ha⟩ := h.serving
    refine ⟨?_, ha.child hcount h.sending hok hs, fun l hl => ?_⟩
    · obtain ⟨c, d, effs, -, -, -, -, rfl⟩ := child_inv hs
      exact h.sending.of_eq rfl rfl rfl rfl fun _ _ hk => hk
    · refine Closed.child hs (h.agreed l ?_)
      obtain ⟨c, d, effs, -, -, -, -, rfl⟩ := child_inv hs
      exact hl
  | interrupt k =>
    obtain ⟨-, rfl⟩ := interrupt_inv hs
    obtain ⟨a, ha⟩ := h.serving
    exact ⟨h.sending.of_eq rfl rfl rfl rfl fun _ _ hk => hk, ⟨a, ha.dir, ha.alone, ha.serves,
      ha.replies⟩, h.agreed⟩

theorem Inv.init (U : ℕ → Upload) (now : ℕ → ℤ) {server : Shared} (h : server.Start) :
    Inv U (init U now server) := by
  refine ⟨⟨?_, fun j => rfl, ?_, fun j _ => Or.inl rfl, ?_, ?_⟩,
    ⟨Apart.start, .start h, .start h, ?_, ?_⟩, ?_⟩
  · exact fun j => Client.WindowInv.init _ _ _
  · intro j d hd
    cases hd
  · intro j k hk
    cases hk
  · intro k d hd
    cases hd
  · intro k x j hx
    cases hx
  · intro j p hp
    cases hp
  · intro j hpc
    cases hpc

/-- The file of a client's child in the directory. -/
theorem Inv.file (h : Inv U s) {j k : ℕ} {c : Child} (hc : s.server.children k = some c)
    (hpeer : s.peer k = some j)
    (hl : Shared.Live c.pc) : c.filename = basename (U j).name ∧
    ∃ i, s.server.fs.dir (basename (U j).name) = some i ∧
      (s.server.fs.file i).content <+: (U j).content ∧
      (c.Closing → (s.server.fs.file i).content = (U j).content) := by
  obtain ⟨a, ha⟩ := h.serving
  have hk := ha.alone.children k
  rw [hc] at hk
  obtain ⟨x, hx, rfl⟩ := Option.map_eq_some_iff.mp hk.symm
  have hserves := ha.serves hx hpeer
  obtain ⟨ho, bs, hbs, hpre, hwhole⟩ := hserves.file hl
  obtain ⟨i, -, -, hdir, hdisk⟩ := ha.alone.file ha.dir hx hl
  obtain rfl : bs = (s.server.fs.file i).content := Option.some.inj (hbs.symm.trans hdisk)
  have hname := (hserves.known ho).1
  rw [hname] at hdir
  exact ⟨hname, i, hdir, hpre, hwhole⟩

/-- What the children have written: when a client has returned `0`, a child of it has been given the
whole file, under the last component of its name. -/
theorem Inv.given (hinv : Inv U s) {j : ℕ} (hj : (s.clients j).pc = .done (.returned .ok)) :
    ∃ k c i, s.Forked j k ∧ s.server.children k = some c ∧ Shared.Live c.pc ∧
      s.server.fs.dir (basename (U j).name) = some i ∧
      (s.server.fs.file i).content = (U j).content := by
  obtain ⟨k, c, hk, hc, hcl⟩ := hinv.agreed j hj
  obtain ⟨-, i, hdir, -, hwhole⟩ := hinv.file hc hk.1 hcl.live
  exact ⟨k, c, i, hk, hc, hcl.live, hdir, hwhole hcl⟩

/-- Of the clients with one name at most one returns `0`: two children with one name have one file,
and so are one child. -/
theorem Inv.one_success (hinv : Inv U s) {j l : ℕ} (hj : (s.clients j).pc = .done (.returned .ok))
    (hl : (s.clients l).pc = .done (.returned .ok))
    (hname : basename (U j).name = basename (U l).name) : j = l := by
  obtain ⟨k, c, hk, hc, hcl⟩ := hinv.agreed j hj
  obtain ⟨m, d, hm, hd, hdl⟩ := hinv.agreed l hl
  obtain ⟨a, ha⟩ := hinv.serving
  obtain ⟨i, pos, hfd, hdir⟩ := ha.dir.live hc hcl.live
  obtain ⟨i', pos', hfd', hdir'⟩ := ha.dir.live hd hdl.live
  rw [(hinv.file hc hk.1 hcl.live).1, hname] at hdir
  rw [(hinv.file hd hm.1 hdl.live).1, hdir] at hdir'
  obtain rfl := Option.some.inj hdir'
  obtain rfl := ha.dir.fd_inj hfd hfd'
  exact Option.some.inj (hk.1.symm.trans hm.1)

end Steps

/-! ## The streams of the children -/

/-- The site with the streams of its children.  A child that a `SIGINT` ends flushes its stream
too. -/
def stdio (addr wanted origin : ℕ → Addr) : Stdio.Program Site SiteEv ℕ Byte where
  step := step addr wanted origin
  opens s
    | .child k i => (Shared.stdio origin).opens s.server (.child k i)
    | _ => none
  writes s
    | .child k i => (Shared.stdio origin).writes s.server (.child k i)
    | _ => none
  ended s k := s.stopped k || (Shared.stdio origin).ended s.server k

def HasFile (s : Site) (k : ℕ) : Prop := s.server.HasFile k

def content (s : Site) (k : ℕ) : Bytes := s.server.content k

/-- The server of the site, with its streams. -/
def serverStreams (s : Stdio.Streams Site ℕ Byte) : Stdio.Streams Shared ℕ Byte :=
  ⟨s.base.server, s.stream⟩

/-- What file `i` is on the disk. -/
def onDisk (s : Stdio.Streams Site ℕ Byte) (i : ℕ) : Bytes := Shared.onDisk (serverStreams s) i

section Streams

variable {U : ℕ → Upload} {addr wanted origin : ℕ → Addr}

/-- **What a step of the site writes** to the files of the children. -/
theorem stdio_writes {s t : Site} (hinv : Inv U s) {e : SiteEv} (hok : Confirmed s e)
    (hs : s.step addr wanted origin e = some t) :
    (stdio addr wanted origin).Writes HasFile content s e t := by
  have hclient : ∀ {j src i}, s.clientStep wanted j src i = some t → t.server = s.server := by
    intro j src i hs
    obtain ⟨c, out, -, -, -, hserver, -⟩ := clientStep_inv hs
    exact hserver
  -- a step that the server has no part in
  have hquiet : t.server = s.server → (∀ k i, e ≠ .child k i) →
      (stdio addr wanted origin).Writes HasFile content s e t := by
    intro hserver hne p hp
    have hw : (stdio addr wanted origin).writes s e = none := by
      cases e with
      | child k i => exact absurd rfl (hne k i)
      | _ => rfl
    have ho : (stdio addr wanted origin).opens s e = none := by
      cases e with
      | child k i => exact absurd rfl (hne k i)
      | _ => rfl
    simp only [HasFile, content, hserver] at hp ⊢
    exact Or.inr (Or.inr ⟨by simp [hw], by simp [ho], hp, trivial⟩)
  obtain ⟨a, ha⟩ := hinv.serving
  cases e with
  | clientSend j sendto now => exact hquiet (hclient hs) (by simp)
  | clientGot j temp k d now =>
    simp only [Site.step] at hs
    split_ifs at hs
    exact hquiet (hclient hs) (by simp)
  | clientFail j temp errno now => exact hquiet (hclient hs) (by simp)
  | fork j d =>
    have hfork : s.server.step origin (.fork d) = some t.server := by
      obtain ⟨-, rfl⟩ := fork_inv hs
      rfl
    exact Shared.stdio_writes (e := .fork d) ha.alone ha.dir trivial hfork
  | child k i =>
    obtain ⟨c, d, effs, -, -, -, hserver, -⟩ := child_inv hs
    exact Shared.stdio_writes ha.alone ha.dir hok hserver
  | interrupt k =>
    obtain ⟨-, rfl⟩ := interrupt_inv hs
    exact hquiet rfl (by simp)

end Streams

/-- **The whole site**: any number of clients, whose files use no number twice, of one server that
others use too, over networks that lose, duplicate and reorder.  In every run in which `fopen` finds
its names absent and no client ends its closing loop without a `FINACK` before a child of it is in
its own: when a client has returned `0`, a child forked for it has written the client's whole file
under the last component of its name, and has it on the disk as soon as its stream holds nothing
back, which a flush at its end that does not fail brings about; of the clients with one such
component at most one returns `0`; and as long as a client's child has its file, what of it is on
the disk is a beginning of that client's file. -/
theorem uploads (U : ℕ → Upload) (hcount : ∀ j, chunkCount (U j).content + 49 < 65536)
    (addr wanted origin : ℕ → Addr) (size : ℕ) (now : ℕ → ℤ) (server : Shared) (h₀ : server.Start)
    (es : List (Stdio.Call SiteEv ℕ)) (s : Stdio.Streams Site ℕ Byte)
    (hok : Machine.Meets (step addr wanted origin) Confirmed (init U now server) (Stdio.calls es))
    (h : Machine.exec ((stdio addr wanted origin).next size) (.start (init U now server)) es =
      some s) :
    (∀ j, (s.base.clients j).pc = .done (.returned .ok) →
      ∃ k f i, s.base.Forked j k ∧ s.stream k = some f ∧
        s.base.server.fs.dir (basename (U j).name) = some i ∧ f.given = (U j).content ∧
        onDisk s i = f.file ∧ (f.held = [] → onDisk s i = (U j).content)) ∧
      (∀ j l, (s.base.clients j).pc = .done (.returned .ok) →
        (s.base.clients l).pc = .done (.returned .ok) →
        basename (U j).name = basename (U l).name → j = l) ∧
      ∀ j k c, s.base.server.children k = some c → s.base.peer k = some j → Shared.Live c.pc →
        ∃ i, s.base.server.fs.dir (basename (U j).name) = some i ∧
          onDisk s i <+: (U j).content := by
  have hmeets := Stdio.Program.meets_calls (m := stdio addr wanted origin) h hok
  have hstart : Stdio.Program.Given HasFile content (.start (init U now server)) := by
    rintro k ⟨c, hc, -⟩
    rw [Stdio.Streams.start, init, h₀.children k] at hc
    cases hc
  obtain ⟨hinv, hgiven⟩ := Stdio.Program.exec_given (I := Inv U)
    (fun s e t hI hc hs => hI.step hcount hc hs) (fun s e t hI hc hs => stdio_writes hI hc hs)
    (Inv.init U now h₀) hstart hmeets h
  obtain ⟨a, ha⟩ := hinv.serving
  -- the stream of a child that has its file, and the file
  have hstream : ∀ k c i, s.base.server.children k = some c → Shared.Live c.pc →
      s.base.server.fs.dir c.filename = some i → ∃ f, s.stream k = some f ∧
        f.given = (s.base.server.fs.file i).content ∧ onDisk s i = f.file := by
    intro k c i hc hl hdir
    obtain ⟨i', pos, hfd, hdir'⟩ := ha.dir.live hc hl
    obtain rfl := Option.some.inj (hdir.symm.trans hdir')
    obtain ⟨f, hf, hfgiven⟩ := hgiven k ⟨c, hc, hl⟩
    refine ⟨f, hf, hfgiven.trans (Shared.content_eq hfd), ?_⟩
    exact Shared.onDisk_eq (s := serverStreams s) ha.dir hfd hf
  refine ⟨fun j hj => ?_, fun j l hj hl hname => hinv.one_success hj hl hname,
    fun j k c hc hpeer hlive => ?_⟩
  · obtain ⟨k, c, i, hk, hc, hl, hdir, hwhole⟩ := hinv.given hj
    obtain ⟨f, hf, hfgiven, hdisk⟩ :=
      hstream k c i hc hl (by rw [(hinv.file hc hk.1 hl).1]; exact hdir)
    rw [hwhole] at hfgiven
    refine ⟨k, f, i, hk, hf, hdir, hfgiven, hdisk, fun hheld => ?_⟩
    rw [hdisk, Stdio.Stream.file_eq_given hheld, hfgiven]
  · obtain ⟨hname, i, hdir, hpre, -⟩ := hinv.file hc hpeer hlive
    obtain ⟨f, hf, hfgiven, hdisk⟩ := hstream k c i hc hlive (by rw [hname]; exact hdir)
    refine ⟨i, hdir, ?_⟩
    rw [hdisk]
    exact f.file_prefix.trans (by rw [hfgiven]; exact hpre)

/-- Client `0` sends its byte, while the server has a datagram of somebody else. -/
def oneUpload : List SiteEv :=
  [.clientSend 0 (fun _ => true) 0, .fork (some 0) (requestPacket [97] 1), .fork none [0],
    .child 0 (.setup true),
    .child 0 (.access false), .child 0 (.fopen true 0), .child 0 (.send true false 0),
    .child 1 (.setup true),
    .clientGot 0 [] 0 (ackPacket 1) 0, .clientSend 0 (fun _ => true) 0,
    .child 0 (.poll 0 [] (fun _ => 0) (.got ⟨[]⟩ (dataPacket [42] 0))), .child 0 (.fwrite 1 0),
    .clientGot 0 [] 0 (ackPacket 2) 0, .clientFail 0 [] .again 0, .clientSend 0 (fun _ => true) 0,
    .child 0 (.poll 0 [] (fun _ => 0) (.got ⟨[]⟩ Client.finPacket)), .child 0 (.send true false 0),
    .clientGot 0 [] 0 finAckPacket 0]

/-- The child returns when nothing acknowledges its `FINACK`, and flushes its stream. -/
def oneUploadOut : List (Stdio.Call SiteEv ℕ) :=
  oneUpload.map (.call · 0) ++
    [.call (.child 0 (.poll 0 [] (fun _ => 0) (.fail .again))) 0,
      .call (.child 0 (.send true false 2)) 0, .close 0 1]

set_option maxRecDepth 4000 in
theorem uploads_oneUploadOut : ∃ s i,
    Machine.exec ((stdio (fun _ => ⟨[]⟩) (fun _ => ⟨[]⟩) fun _ => ⟨[]⟩).next 4096)
      (.start (init (fun _ => Session.oneByte) (fun _ => 0) Shared.empty)) oneUploadOut = some s ∧
    (s.base.clients 0).pc = .done (.returned .ok) ∧ s.base.server.fs.dir [97] = some i ∧
    onDisk s i = [42] := by
  obtain ⟨s, g, hs, hpc, hg, hheld, hforked, hother⟩ : ∃ s g,
      Machine.exec ((stdio (fun _ => ⟨[]⟩) (fun _ => ⟨[]⟩) fun _ => ⟨[]⟩).next 4096)
        (.start (init (fun _ => Session.oneByte) (fun _ => 0) Shared.empty)) oneUploadOut =
          some s ∧
      (s.base.clients 0).pc = .done (.returned .ok) ∧ s.stream 0 = some g ∧ g.held = [] ∧
      s.base.server.forked = 2 ∧ s.base.peer 1 = none := ⟨_, _, rfl, rfl, rfl, rfl, rfl, rfl⟩
  have hup := (uploads (fun _ => Session.oneByte) (fun _ => by decide) _ _ _ 4096 (fun _ => 0)
    Shared.empty Shared.start_empty oneUploadOut s ?_ hs).1 0 hpc
  · obtain ⟨k, f, i, hk, hf, hdir, -, -, hdisk⟩ := hup
    obtain rfl : k = 0 := by
      have hlt := hk.2
      have hpeer := hk.1
      by_contra hne
      obtain rfl : k = 1 := by omega
      rw [hother] at hpeer
      cases hpeer
    obtain rfl := Option.some.inj (hg.symm.trans hf)
    exact ⟨s, i, hs, hpc, hdir, hdisk hheld⟩
  refine .cons rfl (fun hpc => by cases hpc)
    (.cons rfl trivial (.cons rfl trivial (.cons rfl trivial ?_)))
  refine .cons rfl trivial (.cons rfl (fun _ _ _ => rfl) (.cons rfl trivial (.cons rfl trivial ?_)))
  refine .cons rfl trivial (.cons rfl (fun hpc => by cases hpc)
    (.cons rfl trivial (.cons rfl trivial ?_)))
  refine .cons rfl trivial (.cons rfl (fun hpc => by cases hpc)
    (.cons rfl (fun _ ht => absurd (by decide) ht) ?_))
  refine .cons rfl trivial (.cons rfl trivial (.cons rfl trivial ?_))
  exact .cons rfl trivial (.cons rfl trivial trivial)

end Site

end FortyTwoHundred.Ftp
