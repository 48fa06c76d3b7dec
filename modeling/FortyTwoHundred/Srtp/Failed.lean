import FortyTwoHundred.Srtp.Tables

/-!
# Failed — what a call that returns -1 leaves behind

`_srtp_bind`, `_srtp_listen`, `_srtp_connect` and `_srtp_accept` return -1 when they fail, and are
meant to leave everything as it was: the tables, the connections and the UDP sockets of the
process.

`_srtp_listen` opens its UDP socket and stores its number before it looks at the address, and closes
it on no path; `_srtp_connect` leaves the socket open when `connect` fails, and keeps the address
and the closed socket in the connection when the handshake fails.  `Harmless` lists the calls
without such an effect, and `failed_call_unchanged_iff` says that it leaves out none.
-/

namespace FortyTwoHundred.Srtp

/-- The connection with its unset fields as the block `j` holds them. -/
def ConnT.fill (j : Junk) (c : ConnT) : ConnT :=
  { c with
    tid := some (c.readTid j)
    sock := some (c.readSock j)
    addr := c.readAddr j
    addrLen := some (c.readAddrLen j)
    sequence := some (c.readSequence j) }

/-- An address stored in a connection. -/
def ConnT.store (bs : Bytes) (c : ConnT) :
    ConnT := { c with addr := (overlay bs c.addr).take sockaddrSize }

namespace Sockets

/-- The call has returned `v`. -/
def Returned (v : ℤ) (t : Sockets) : Prop := t.fault = none ∧ t.log.getLast? = some (.ret v)

/-- The tables, all fields of all connections and the open UDP sockets are the same. -/
structure Unchanged (junk : ℕ → Junk) (s t : Sockets) : Prop where
  fd2conn : t.fd2conn = s.fd2conn
  hash2fd : t.hash2fd = s.hash2fd
  newConns : t.newConns = s.newConns
  heap : ∀ id, (t.heap id).map (ConnT.fill (junk id)) = (s.heap id).map (ConnT.fill (junk id))
  udp : ∀ n, n ∈ t.udp ↔ n ∈ s.udp

/-- `_srtp_bind`, `_srtp_listen`, `_srtp_connect` and `_srtp_accept`. -/
def SetsUp : Call → Prop
  | .bind _ _ => True
  | .listen _ _ _ _ _ => True
  | .connect _ _ _ _ _ _ => True
  | .accept _ _ => True
  | _ => False

/-- Calls that change nothing if they return -1. -/
def Harmless (junk : ℕ → Junk) (s : Sockets) : Call → Prop
  | .listen fd sockOk bindOk _ _ =>
    s.isOpenSRTPSock fd = true → ∀ id c, s.connAt fd = some (id, c) →
      (c.readAddrLen (junk id) ≠ 0 ∧ sockOk = true ∧ bindOk = true) ∨
      (sockOk = false ∧ c.readSock (junk id) = -1)
  | .connect fd address sockOk connOk established _ =>
    s.isOpenSRTPSock fd = true → isValidIPAddress address = true → sockOk = true →
      connOk = true ∧ ∀ id c, s.connAt fd = some (id, c) → (address.getD []).length ≤ sockaddrSize →
        established = true ∨
          (c.readSock (junk id) = lowestFree s.files ∧
            (c.store (address.getD [])).readAddr (junk id) = c.readAddr (junk id))
  | _ => True

/-! ## The open sockets -/

/-- The UDP sockets are open descriptors. -/
def UdpOpen (s : Sockets) : Prop := ∀ n ∈ s.udp, n ∈ s.files

section Open

variable {s : Sockets}

theorem UdpOpen.openUdp (h : UdpOpen s) (ok : Bool) : UdpOpen (s.openUdp ok) := by
  unfold Sockets.openUdp
  split_ifs
  · intro n hn
    rcases List.mem_cons.mp hn with rfl | hn
    · exact List.mem_cons_self
    · exact List.mem_cons_of_mem _ (h n hn)
  · exact h

theorem UdpOpen.closeFd (h : UdpOpen s) (fd : ℤ) : UdpOpen (s.closeFd fd) := by
  intro n hn
  obtain ⟨h1, h2⟩ := List.mem_filter.mp hn
  exact List.mem_filter.mpr ⟨h n h1, h2⟩

theorem UdpOpen.srtpSocket (h : UdpOpen s) (tries : ℕ) (opens : Bool) :
    UdpOpen (s.srtpSocket tries opens) := by
  unfold Sockets.srtpSocket
  dsimp only
  split_ifs
  · exact fun n hn => List.mem_cons_of_mem _ (h n hn)
  · exact h

theorem UdpOpen.ite {p : Prop} [Decidable p] {t : Sockets} (hs : UdpOpen s) (ht : UdpOpen t) :
    UdpOpen (if p then s else t) := by
  split_ifs
  · exact hs
  · exact ht

theorem UdpOpen.deref (h : UdpOpen s) {fd : ℤ} {k : ℕ → ConnT → Sockets → Sockets}
    (hk : ∀ id c u, UdpOpen u → UdpOpen (k id c u)) : UdpOpen (s.deref fd k) := by
  have ht : UdpOpen (s.touch fd) := h
  unfold Sockets.deref
  split
  · exact hk _ _ _ ht
  · exact ht

theorem UdpOpen.handlePkt (h : UdpOpen s) (bo : ByteOrder) (junk : ℕ → Junk) (v : Server)
    (d : Datagram) (id : ℕ) (c : ConnT) : UdpOpen (s.handlePkt bo junk v d id c) := by
  unfold Sockets.handlePkt
  dsimp only
  split_ifs
  · split <;> exact h
  · exact h

theorem UdpOpen.recvSrtpData (h : UdpOpen s) (bo : ByteOrder) (junk : ℕ → Junk) (v : Server)
    (d : Datagram) : UdpOpen (s.recvSrtpData bo junk v d).1 := by
  have h1 : UdpOpen (s.lookup d.srcAddr.ip) := h
  unfold Sockets.recvSrtpData
  dsimp only
  split
  · exact h1.deref fun id c u hu => hu.handlePkt bo junk v d id c
  · refine (h1.srtpSocket d.tries d.opens).deref fun id c u hu => ?_
    have hu' : UdpOpen ((u.setConn id { c with
      addr := d.srcAddr.bytes bo
      addrLen := some bufferSize }).record d.srcAddr.ip
      ((s.lookup d.srcAddr.ip).socketFd d.opens)) := hu
    exact hu'.handlePkt bo junk v d id _

/-- Sockets are opened and closed as descriptors. -/
theorem UdpOpen.step {bo : ByteOrder} {junk : ℕ → Junk} {t : Sockets} {e : Call} (hsound : Sound s)
    (h : UdpOpen s) (hs : s.step bo junk e = some t) : UdpOpen t := by
  obtain ⟨-, htrans⟩ := trans_of_step hsound hs
  cases htrans with
  | socket tries opens => exact h.srtpSocket tries opens
  | bind fd address => exact .ite h (.ite h (h.deref fun id c u hu => .ite hu hu))
  | listen fd sockOk bindOk tid buffer =>
    refine .ite h (h.deref fun id c u hu => ?_)
    have hu' := hu.openUdp sockOk
    exact .ite hu' (.ite hu' hu')
  | connect fd address sockOk connOk established tid =>
    have h' := h.openUdp sockOk
    exact .ite h (.ite h (.ite h' (h'.deref fun id c u hu => .ite hu (.ite (hu.closeFd _) hu))))
  | accept fd addressLen => exact h
  | close fd =>
    refine .ite h ((h.closeFd fd).deref fun id c u hu => ?_)
    have hu' : UdpOpen (if c.readTid (junk id) ≠ 0 then
        { ((u.closeFd (c.readSock (junk id))).observe (.cancel (c.readTid (junk id)))).observe
            (.join (c.readTid (junk id))) with
          servers := u.servers.filter fun v => decide (v.tid ≠ c.readTid (junk id)) }
      else u) := .ite (hu.closeFd _) hu
    exact hu'
  | osClose fd => exact h.closeFd fd
  | datagram k d v =>
    have h1 : UdpOpen { s with servers := s.servers.set k (v.store d.bytes) } := h
    exact h1.recvSrtpData bo junk (v.store d.bytes) d

theorem reachable_udpOpen {bo : ByteOrder} {junk : ℕ → Junk} {files : List ℕ} {es : List Call}
    (h : Machine.exec (Sockets.step bo junk) (init files) es = some s) : Sound s ∧ UdpOpen s :=
  Machine.exec_invariant (I := fun s => Sound s ∧ UdpOpen s)
    (fun _ _ _ hi ht => ⟨hi.1.step ht, hi.2.step hi.1 ht⟩)
    ⟨sound_init files, fun _ hn => (by cases hn)⟩ h

/-- A new UDP socket is one that was not there. -/
theorem UdpOpen.lowestFree_notMem (h : UdpOpen s) : lowestFree s.files ∉ s.udp := by
  intro hmem
  have hfree := Reassembly.missing_notMem s.files
  rw [← lowestFree_eq] at hfree
  exact hfree (h _ hmem)

end Open

/-! ## One call -/

section Call

variable {junk : ℕ → Junk} {s t : Sockets} {fd : ℤ} {id : ℕ} {c : ConnT}

theorem unchanged_ret (junk : ℕ → Junk) (s : Sockets) (v : ℤ) : Unchanged junk s (s.ret v) :=
  ⟨rfl, rfl, rfl, fun _ => rfl, fun _ => Iff.rfl⟩

theorem not_returned_of_fault {v : ℤ} (h : t.fault ≠ none) : ¬ Returned v t := fun hr => h hr.1

theorem not_returned_ret {v w : ℤ} (h : w ≠ v) : ¬ Returned v (t.ret w) := by
  rintro ⟨-, hl⟩
  simp only [ret, observe, List.getLast?_append, List.getLast?_singleton, Option.some_or,
    Option.some.injEq,
    Obs.ret.injEq] at hl
  exact h hl

theorem returned_ret {v : ℤ} (h : t.fault = none) :
    Returned v (t.ret v) := ⟨h, by simp [ret, observe]⟩

/-- A call that writes to one connection, and opens and closes no socket in the end, changes nothing
exactly if the fields of that connection are the same. -/
theorem unchanged_iff_fill {c' : ConnT} (hc : s.heap id = some c) (hk : Keeps s t)
    (hheap : t.heap = StdMap.put s.heap id c')
    (hudp : ∀ n, n ∈ t.udp ↔ n ∈ s.udp) : Unchanged junk s t ↔
      c'.fill (junk id) = c.fill (junk id) := by
  constructor
  · intro h
    have hid := h.heap id
    rw [hheap, StdMap.put_self, hc, Option.map_some, Option.map_some] at hid
    exact Option.some.inj hid
  · intro h
    refine ⟨hk.fd2conn, hk.hash2fd, hk.newConns, fun i => ?_, hudp⟩
    rw [hheap]
    by_cases hi : i = id
    · rw [hi, StdMap.put_self, hc, Option.map_some, Option.map_some, h]
    · rw [StdMap.put_of_ne hi]

theorem fill_sock_iff {j : Junk} {v : ℤ} : ConnT.fill j { c with sock := some v } = c.fill j ↔
    c.readSock j = v := by
  constructor
  · intro h
    have := congrArg ConnT.sock h
    exact (Option.some.inj this).symm
  · intro h
    unfold ConnT.fill
    rw [h]
    rfl

theorem fill_store_iff {j : Junk} {v : ℤ} {bs : Bytes} :
    ConnT.fill j { c.store bs with sock := some v } = c.fill j ↔
      c.readSock j = v ∧ (c.store bs).readAddr j = c.readAddr j := by
  constructor
  · intro h
    exact ⟨(Option.some.inj (congrArg ConnT.sock h)).symm, congrArg ConnT.addr h⟩
  · rintro ⟨h1, h2⟩
    have haddr : ConnT.readAddr j { c.store bs with sock := some v } = c.readAddr j := h2
    unfold ConnT.fill
    rw [h1, haddr]
    rfl

/-- How `_srtp_listen` fails: the socket is opened and stored, and stays so. -/
theorem srtpListen_failed {sockOk bindOk : Bool} (ho : s.isOpenSRTPSock fd = true)
    (hat : s.connAt fd = some (id, c))
    (hf : s.fault = none) (hfail : ¬ (c.readAddrLen (junk id) ≠ 0 ∧ sockOk = true ∧ bindOk = true))
    (tid : ℕ) (buffer : Bytes) :
    Returned (-1) (s.srtpListen junk fd sockOk bindOk tid buffer) ∧
      (s.srtpListen junk fd sockOk bindOk tid buffer).udp = (s.openUdp sockOk).udp ∧
      (s.srtpListen junk fd sockOk bindOk tid buffer).heap =
        StdMap.put s.heap id { c with sock := some (s.udpFd sockOk) } := by
  have hheap : (s.openUdp sockOk).heap = s.heap := by cases sockOk <;> rfl
  have hfault : (s.openUdp sockOk).fault = none := by cases sockOk <;> exact hf
  unfold srtpListen
  rw [if_neg (by simp [ho]), deref_of_connAt hat]
  dsimp only
  split_ifs with h0 h1
  · exact ⟨returned_ret hfault, rfl, by rw [← hheap]; rfl⟩
  · exact ⟨returned_ret hfault, rfl, by rw [← hheap]; rfl⟩
  · refine absurd ⟨h0, ?_⟩ hfail
    simpa using h1

theorem srtpListen_ok {sockOk bindOk : Bool} {tid : ℕ} {buffer : Bytes}
    (ho : s.isOpenSRTPSock fd = true)
    (hat : s.connAt fd = some (id, c))
    (hok : c.readAddrLen (junk id) ≠ 0 ∧ sockOk = true ∧ bindOk = true) :
    ¬ Returned (-1) (s.srtpListen junk fd sockOk bindOk tid buffer) := by
  obtain ⟨h0, rfl, rfl⟩ := hok
  unfold srtpListen
  rw [if_neg (by simp [ho]), deref_of_connAt hat]
  dsimp only
  rw [if_neg (by exact h0), if_neg (by simp)]
  exact not_returned_ret (by decide)

/-- A `_srtp_listen` that fails changes nothing exactly if it gets no socket and had none. -/
theorem listen_failed_iff (hu : UdpOpen s) {sockOk : Bool} (hc : s.heap id = some c)
    (hk : Keeps s t) (hudp : t.udp = (s.openUdp sockOk).udp)
    (hheap : t.heap = StdMap.put s.heap id { c with sock := some (s.udpFd sockOk) }) :
    Unchanged junk s t ↔ sockOk = false ∧ c.readSock (junk id) = -1 := by
  cases sockOk with
  | true =>
    refine ⟨fun h => ?_, fun h => by cases h.1⟩
    have hmem : lowestFree s.files ∈ t.udp := by
      rw [hudp]
      exact List.mem_cons_self
    exact absurd ((h.udp _).mp hmem) hu.lowestFree_notMem
  | false =>
    have hsame : ∀ n, n ∈ t.udp ↔ n ∈ s.udp := by
      intro n
      rw [hudp]
      rfl
    rw [unchanged_iff_fill hc hk hheap hsame, fill_sock_iff]
    exact (and_iff_right rfl).symm

/-- A condition on the connection of a socket that is open and has one. -/
theorem forall_connAt_iff {P : ℕ → ConnT → Prop} (ho : s.isOpenSRTPSock fd = true)
    (hat : s.connAt fd = some (id, c)) :
    (s.isOpenSRTPSock fd = true → ∀ i k, s.connAt fd = some (i, k) → P i k) ↔ P id c := by
  refine ⟨fun h => h ho id c hat, fun h _ i k hk => ?_⟩
  rw [hat] at hk
  cases hk
  exact h

theorem Effect.keeps {t : Sockets} (he : Effect fd s t) (hat : s.connAt fd = some (id, c)) :
    Keeps s t := by
  rcases he with hk | ⟨-, hn, -⟩
  · exact hk
  · rw [hn] at hat
    cases hat

theorem listen_iff (hu : UdpOpen s) (hf : s.fault = none) (sockOk bindOk : Bool) (tid : ℕ)
    (buffer : Bytes) : (Returned (-1) (s.srtpListen junk fd sockOk bindOk tid buffer) →
        Unchanged junk s (s.srtpListen junk fd sockOk bindOk tid buffer)) ↔
      s.Harmless junk (.listen fd sockOk bindOk tid buffer) := by
  by_cases ho : s.isOpenSRTPSock fd = true
  · cases hat : s.connAt fd with
    | none =>
      unfold srtpListen
      rw [if_neg (by simp [ho]), deref_of_none hat]
      exact iff_of_true (fun hr => absurd hr (not_returned_of_fault (by simp [crash])))
        fun _ id c hc => by rw [hat] at hc; cases hc
    | some p =>
      obtain ⟨id, c⟩ := p
      refine Iff.trans ?_ (forall_connAt_iff ho hat).symm
      by_cases hok : c.readAddrLen (junk id) ≠ 0 ∧ sockOk = true ∧ bindOk = true
      · exact iff_of_true (fun hr => absurd hr (srtpListen_ok ho hat hok)) (Or.inl hok)
      · obtain ⟨hret, hudp, hheap⟩ := srtpListen_failed ho hat hf hok tid buffer
        have hk := (effect_listen junk fd sockOk bindOk tid buffer s).keeps hat
        rw [forall_prop_of_true hret, listen_failed_iff hu (connAt_eq_some.mp hat).2 hk hudp hheap]
        exact ⟨Or.inr, fun h => h.resolve_left hok⟩
  · unfold srtpListen
    rw [if_pos (by simpa using ho)]
    exact iff_of_true (fun _ => unchanged_ret junk s _) fun h => absurd h ho

/-! `_srtp_connect`. -/

/-- Neither an invalid address nor a socket that cannot be made changes anything. -/
theorem srtpConnect_refused {address : Option Bytes} {sockOk : Bool}
    (h : ¬ (s.isOpenSRTPSock fd = true ∧ isValidIPAddress address = true ∧ sockOk = true))
    (connOk established : Bool) (tid : ℕ) : s.srtpConnect fd address sockOk connOk established tid =
      s.ret (-1) := by
  unfold srtpConnect
  by_cases ho : s.isOpenSRTPSock fd = true
  · by_cases hv : isValidIPAddress address = true
    · have hs : sockOk = false := by simpa [ho, hv] using h
      subst hs
      rw [if_neg (by simp [ho]), if_neg (by simp [hv])]
      dsimp only
      rw [if_pos (by simp)]
      rfl
    · rw [if_neg (by simp [ho]), if_pos (by simpa using hv)]
  · rw [if_pos (by simpa using ho)]

section Opened

variable {address : Option Bytes} (ho : s.isOpenSRTPSock fd = true)
  (hv : isValidIPAddress address = true)
include ho hv

/-- When `connect` fails, the socket stays open. -/
theorem srtpConnect_unreachable (established : Bool) (tid : ℕ) :
    s.srtpConnect fd address true false established tid = (s.openUdp true).ret (-1) := by
  unfold srtpConnect
  rw [if_neg (by simp [ho]), if_neg (by simp [hv])]
  dsimp only
  rw [if_pos (by simp)]

/-- When it succeeds, the address and the socket are stored before the handshake. -/
theorem srtpConnect_reached (hat : s.connAt fd = some (id, c)) (established : Bool) (tid : ℕ) :
    s.srtpConnect fd address true true established tid =
      let c := { c.store (address.getD []) with sock := some (lowestFree s.files : ℤ) }
      let t := (s.openUdp true).setConn id c
      if sockaddrSize < (address.getD []).length then t.crash .overflow
      else if !established then (t.closeFd (lowestFree s.files)).ret (-1)
      else (t.setConn id { c with tid := some tid }).ret 0 := by
  have hat' : (s.openUdp true).connAt fd = some (id, c) := hat
  unfold srtpConnect
  rw [if_neg (by simp [ho]), if_neg (by simp [hv])]
  dsimp only
  rw [if_neg (by simp), deref_of_connAt hat']
  rfl

theorem srtpConnect_dangling (hat : s.connAt fd = none) (established : Bool) (tid : ℕ) :
    (s.srtpConnect fd address true true established tid).fault ≠ none := by
  have hat' : (s.openUdp true).connAt fd = none := hat
  unfold srtpConnect
  rw [if_neg (by simp [ho]), if_neg (by simp [hv])]
  dsimp only
  rw [if_neg (by simp), deref_of_none hat']
  simp [crash]

end Opened

/-- A socket that is opened and closed again was not there before. -/
theorem mem_closed_iff (hu : UdpOpen s) (n : ℕ) :
    n ∈ ((s.openUdp true).closeFd (lowestFree s.files)).udp ↔ n ∈ s.udp := by
  have hudp : ((s.openUdp true).closeFd (lowestFree s.files)).udp =
      (lowestFree s.files :: s.udp).filter fun n : ℕ => decide ((n : ℤ) ≠ lowestFree s.files) := rfl
  rw [hudp, List.mem_filter, List.mem_cons, decide_eq_true_iff]
  constructor
  · rintro ⟨rfl | h, hne⟩
    · exact absurd rfl hne
    · exact h
  · intro h
    refine ⟨Or.inr h, fun e => hu.lowestFree_notMem ?_⟩
    rwa [← Int.ofNat_inj.mp e]

/-- After a handshake that fails, the connection has the address and the number of the closed
socket. -/
theorem connect_failed_iff (hu : UdpOpen s) (hc : s.heap id = some c) (bs : Bytes) :
    Unchanged junk s ((((s.openUdp true).setConn id
      { c.store bs with sock := some (lowestFree s.files : ℤ) }).closeFd
        (lowestFree s.files)).ret (-1)) ↔
      c.readSock (junk id) = lowestFree s.files ∧ (c.store bs).readAddr (junk id) =
        c.readAddr (junk id) := by
  have hfifo : ConnT.fifo { c.store bs with sock := some (lowestFree s.files : ℤ) } = c.fifo := rfl
  have hk := ((((Keeps.refl s).openUdp true).setConn hc hfifo).closeFd (lowestFree s.files)).ret
    (-1)
  rw [unchanged_iff_fill hc hk rfl (mem_closed_iff hu), fill_store_iff]

/-- The calls of `_srtp_connect` that get as far as the handshake. -/
theorem reached_iff (hu : UdpOpen s) (hf : s.fault = none) {address : Option Bytes}
    (ho : s.isOpenSRTPSock fd = true) (hv : isValidIPAddress address = true) (established : Bool)
    (tid : ℕ) : (Returned (-1) (s.srtpConnect fd address true true established tid) →
        Unchanged junk s (s.srtpConnect fd address true true established tid)) ↔
      ∀ id c, s.connAt fd = some (id, c) → (address.getD []).length ≤ sockaddrSize →
        established = true ∨
          (c.readSock (junk id) = lowestFree s.files ∧
            (c.store (address.getD [])).readAddr (junk id) = c.readAddr (junk id)) := by
  cases hat : s.connAt fd with
  | none =>
    have hfault := srtpConnect_dangling ho hv hat established tid
    exact iff_of_true (fun hr => absurd hr (not_returned_of_fault hfault)) fun _ _ hc => by cases hc
  | some p =>
    obtain ⟨id, c⟩ := p
    rw [srtpConnect_reached ho hv hat]
    dsimp only
    split_ifs with hlen hest
    · refine iff_of_true (fun hr => absurd hr (not_returned_of_fault (by simp [crash])))
        fun _ _ _ hle => ?_
      omega
    · have hret : Returned (-1) ((((s.openUdp true).setConn id
          { c.store (address.getD []) with sock := some (lowestFree s.files : ℤ) }).closeFd
          (lowestFree s.files)).ret
            (-1)) := returned_ret hf
      rw [forall_prop_of_true hret, connect_failed_iff hu (connAt_eq_some.mp hat).2]
      constructor
      · intro h i k hk _
        cases hk
        exact Or.inr h
      · intro h
        refine (h id c rfl (by omega)).resolve_left fun he => ?_
        simp [he] at hest
    · refine iff_of_true (fun hr => absurd hr (not_returned_ret (by decide))) fun _ _ _ _ =>
        Or.inl ?_
      simpa using hest

theorem connect_iff (hu : UdpOpen s) (hf : s.fault = none) (address : Option Bytes)
    (sockOk connOk established : Bool) (tid : ℕ) :
    (Returned (-1) (s.srtpConnect fd address sockOk connOk established tid) →
        Unchanged junk s (s.srtpConnect fd address sockOk connOk established tid)) ↔
      s.Harmless junk (.connect fd address sockOk connOk established tid) := by
  by_cases h : s.isOpenSRTPSock fd = true ∧ isValidIPAddress address = true ∧ sockOk = true
  · obtain ⟨ho, hv, rfl⟩ := h
    cases connOk with
    | false =>
      rw [srtpConnect_unreachable ho hv]
      have hret : Returned (-1) ((s.openUdp true).ret (-1)) := returned_ret hf
      refine iff_of_false (fun h => ?_) fun h => by cases (h ho hv rfl).1
      have hmem : lowestFree s.files ∈ ((s.openUdp true).ret (-1)).udp := List.mem_cons_self
      exact hu.lowestFree_notMem (((h hret).udp _).mp hmem)
    | true =>
      rw [reached_iff hu hf ho hv]
      exact ⟨fun h _ _ _ => ⟨rfl, h⟩, fun h => (h ho hv rfl).2⟩
  · rw [srtpConnect_refused h]
    exact iff_of_true (fun _ => unchanged_ret junk s _) fun ho hv hs => absurd ⟨ho, hv, hs⟩ h

/-- `_srtp_bind` looks at its arguments before it stores anything. -/
theorem bind_unchanged (address : Option Bytes) (hr : Returned (-1) (s.srtpBind fd address)) :
    Unchanged junk s (s.srtpBind fd address) := by
  rcases srtpBind_cases fd address s with ⟨he, -⟩ | ⟨-, -, he⟩ | ⟨id, c, bs, -, -, -, he⟩
  · rw [he]
    exact unchanged_ret junk s _
  · -- here it faults, and below it returns 0 or faults
    rw [he] at hr
    exact absurd hr (not_returned_of_fault (by simp [crash]))
  · rw [he] at hr
    split_ifs at hr
    · exact absurd hr (not_returned_of_fault (by simp [crash]))
    · exact absurd hr (not_returned_ret (by decide))

end Call

/-- In every reachable state, a call that returns -1 changes nothing if it is `Harmless`, and each
other call returns -1 and leaves a socket or a field changed. -/
theorem failed_call_unchanged_iff (bo : ByteOrder) (junk : ℕ → Junk) (files : List ℕ)
    (es : List Call) (s t : Sockets) (e : Call)
    (hreach : Machine.exec (Sockets.step bo junk) (init files) es = some s) (he : SetsUp e)
    (ht : s.step bo junk e = some t) : (Returned (-1) t → Unchanged junk s t) ↔
      s.Harmless junk e := by
  obtain ⟨hsound, hu⟩ := reachable_udpOpen hreach
  obtain ⟨hf, htrans⟩ := trans_of_step hsound ht
  cases htrans with
  | bind fd address => exact iff_of_true (bind_unchanged address) trivial
  | listen fd sockOk bindOk tid buffer => exact listen_iff hu hf sockOk bindOk tid buffer
  | connect fd address sockOk connOk established tid =>
    exact connect_iff hu hf address sockOk connOk established tid
  | accept fd addressLen => exact iff_of_true (fun _ => unchanged_ret junk s _) trivial
  | socket tries opens => exact he.elim
  | close fd => exact he.elim
  | osClose fd => exact he.elim
  | datagram k d v => exact he.elim

/-- A socket that cannot be made fails `_srtp_connect` and leaves nothing behind. -/
theorem connect_without_socket_unchanged : ∃ s t,
    Machine.exec (step .little zeroJunk) (init [0, 1, 2]) [.socket 0 true] = some s ∧
      s.step .little zeroJunk (.connect 3 (some [2, 0]) false true true 7) = some t ∧
      Returned (-1) t ∧ Unchanged zeroJunk s t := by
  obtain ⟨s, t, hs, ht, hr⟩ : ∃ s t, Machine.exec (step .little zeroJunk) (init [0, 1, 2])
      [.socket 0 true] = some s ∧
      s.step .little zeroJunk (.connect 3 (some [2, 0]) false true true 7) = some t ∧
      Returned (-1) t :=
    ⟨_, _, rfl, rfl, rfl, rfl⟩
  have hharmless : s.Harmless zeroJunk (.connect 3 (some [2, 0]) false true true 7) :=
    fun _ _ h => by cases h
  have hiff := failed_call_unchanged_iff .little zeroJunk [0, 1, 2] [.socket 0 true] s t
    (.connect 3 (some [2, 0]) false true true 7) hs trivial ht
  exact ⟨s, t, hs, ht, hr, hiff.mpr hharmless hr⟩

/-- `_srtp_listen` on a socket that was never bound leaves a UDP socket open; `_srtp_connect` leaves
one when the peer cannot be reached, and keeps the number of a closed one when the handshake
fails. -/
theorem failed_calls_leave_traces : ∃ s t u v,
    Machine.exec (step .little zeroJunk) (init [0, 1, 2]) [.socket 0 true] = some s ∧ s.udp = [] ∧
      s.step .little zeroJunk (.listen 3 true true 7 []) = some t ∧ Returned (-1) t ∧ t.udp = [4] ∧
      ¬ Unchanged zeroJunk s t ∧
      s.step .little zeroJunk (.connect 3 (some [2, 0]) true false true 7) = some u ∧
      Returned (-1) u ∧ u.udp = [4] ∧
      ¬ Unchanged zeroJunk s u ∧
      s.step .little zeroJunk (.connect 3 (some [2, 0]) true true false 7) = some v ∧
      Returned (-1) v ∧
      (v.connAt 3).map (fun p => p.2.sock) = some (some 4) ∧ 4 ∉ v.files ∧
      ¬ Unchanged zeroJunk s v := by
  refine ⟨_, _, _, _, rfl, rfl, rfl, ⟨rfl, rfl⟩, rfl, fun h => ?_, rfl, ⟨rfl, rfl⟩, rfl,
    fun h => ?_, rfl, ⟨rfl, rfl⟩,
    rfl, by decide, fun h => ?_⟩
  · exact absurd ((h.udp 4).mp (by decide)) (by decide)
  · exact absurd ((h.udp 4).mp (by decide)) (by decide)
  · have hsock := congrArg (Option.map ConnT.sock) (h.heap 0)
    revert hsock
    decide

end Sockets

end FortyTwoHundred.Srtp
