import FortyTwoHundred.Srtp.Sockets

/-!
# Tables — `fd2conn` and `hash2fd` over whole runs

`Tables` says that the tables are in order: every key of `fd2conn` has a live connection with that
descriptor, every value of `hash2fd` is a key, and no call has used a connection that is not
there.  Two steps break it.  A datagram from a new address makes the entry `hash2fd[s_addr] = 0`,
and with it `fd2conn[0] = NULL`, unless descriptor 0 is an SRTP socket; and `_srtp_close` forgets
the entries of `hash2fd` for the descriptor it closes.  `tables_always_iff` says that these are
all.
-/

namespace FortyTwoHundred.Srtp

namespace Sockets

/-- The tables are in order. -/
structure Tables (s : Sockets) : Prop where
  conn : ∀ fd p, s.fd2conn fd = some p → ∃ id c, p = some id ∧ s.heap id = some c ∧ c.fifo = fd
  hash : ∀ ip fd, s.hash2fd ip = some fd → s.fd2conn fd ≠ none
  fault : s.fault ≠ some .badConn

/-- Blocks are numbered in the order of their allocation, and nothing is ever announced. -/
structure Sound (s : Sockets) : Prop where
  heap : ∀ id, s.next ≤ id → s.heap id = none
  pointer : ∀ fd id, s.fd2conn fd = some (some id) → id < s.next
  newConns : s.newConns = []

/-! ## Calls that only write to connections -/

/-- A connection may change, except for its descriptor; the tables do not, and no invalid connection
is used. -/
structure Keeps (s t : Sockets) : Prop where
  fd2conn : t.fd2conn = s.fd2conn
  hash2fd : t.hash2fd = s.hash2fd
  newConns : t.newConns = s.newConns
  next : t.next = s.next
  heap : ∀ id, (t.heap id).map ConnT.fifo = (s.heap id).map ConnT.fifo
  fault : t.fault = some .badConn → s.fault = some .badConn

theorem Keeps.refl (s : Sockets) : Keeps s s := ⟨rfl, rfl, rfl, rfl, fun _ => rfl, id⟩

theorem Keeps.trans {s t u : Sockets} (h : Keeps s t) (h' : Keeps t u) : Keeps s u :=
  ⟨h'.fd2conn.trans h.fd2conn, h'.hash2fd.trans h.hash2fd, h'.newConns.trans h.newConns,
    h'.next.trans h.next,
    fun id => (h'.heap id).trans (h.heap id), h.fault ∘ h'.fault⟩

section Keep

variable {s t : Sockets}

theorem Keeps.observe (h : Keeps s t) (o : Obs) : Keeps s (t.observe o) :=
  ⟨h.fd2conn, h.hash2fd, h.newConns, h.next, h.heap, h.fault⟩

theorem Keeps.ret (h : Keeps s t) (v : ℤ) : Keeps s (t.ret v) := h.observe (.ret v)

theorem Keeps.overflow (h : Keeps s t) : Keeps s (t.crash .overflow) :=
  ⟨h.fd2conn, h.hash2fd, h.newConns, h.next, h.heap, fun e => by cases e⟩

theorem Keeps.closeFd (h : Keeps s t) (fd : ℤ) : Keeps s (t.closeFd fd) :=
  ⟨h.fd2conn, h.hash2fd, h.newConns, h.next, h.heap, h.fault⟩

theorem Keeps.openUdp (h : Keeps s t) (ok : Bool) : Keeps s (t.openUdp ok) := by
  unfold Sockets.openUdp
  split_ifs
  · exact ⟨h.fd2conn, h.hash2fd, h.newConns, h.next, h.heap, h.fault⟩
  · exact h

theorem Keeps.servers (h : Keeps s t) (vs : List Server) : Keeps s { t with servers := vs } :=
  ⟨h.fd2conn, h.hash2fd, h.newConns, h.next, h.heap, h.fault⟩

/-- A connection is written that has the descriptor it had. -/
theorem Keeps.setConn (h : Keeps s t) {id : ℕ} {c c' : ConnT} (hc : s.heap id = some c)
    (hf : c'.fifo = c.fifo) : Keeps s (t.setConn id c') := by
  exact ⟨h.fd2conn, h.hash2fd, h.newConns, h.next, StdMap.map_put h.heap hc hf, h.fault⟩

theorem Tables.keeps (h : Tables s) (hk : Keeps s t) : Tables t := by
  refine ⟨fun fd p hp => ?_, fun ip fd hip => ?_, fun hf => h.fault (hk.fault hf)⟩
  · rw [hk.fd2conn] at hp
    obtain ⟨id, c, rfl, hc, hfd⟩ := h.conn fd p hp
    obtain ⟨c', hc', hfd'⟩ := StdMap.exists_of_map_eq (hk.heap id) hc
    exact ⟨id, c', rfl, hc', hfd'.trans hfd⟩
  · rw [hk.hash2fd] at hip
    rw [hk.fd2conn]
    exact h.hash ip fd hip

theorem Sound.keeps (h : Sound s) (hk : Keeps s t) : Sound t := by
  refine ⟨fun id hid => ?_, fun fd id hp => ?_, hk.newConns.trans h.newConns⟩
  · exact StdMap.eq_none_of_map_eq (hk.heap id) (h.heap id (hk.next ▸ hid))
  · rw [hk.next]
    exact h.pointer fd id (hk.fd2conn ▸ hp)

/-- A fault after a read of `fd2conn`. -/
theorem Sound.crash (h : Sound s) (fd : ℤ) (f : Fault) : Sound ((s.touch fd).crash f) := by
  refine ⟨h.heap, fun x id hp => ?_, h.newConns⟩
  rcases StdMap.insert_eq_some hp with hp | ⟨-, -, e⟩
  · exact h.pointer x id hp
  · cases e

/-- An open SRTP socket has a connection. -/
theorem Tables.connAt (h : Tables s) {fd : ℤ} (ho : s.fd2conn fd ≠ none) :
    ∃ id c, s.connAt fd = some (id, c) ∧ c.fifo = fd := by
  obtain ⟨p, hp⟩ := Option.ne_none_iff_exists'.mp ho
  obtain ⟨id, c, rfl, hc, hfd⟩ := h.conn fd p hp
  exact ⟨id, c, connAt_eq_some.mpr ⟨hp, hc⟩, hfd⟩

end Keep

/-! ## The calls on a socket -/

/-- A call on the socket `fd`: it keeps the tables, or it finds no connection and has a fault. -/
def Effect (fd : ℤ) (s t : Sockets) : Prop :=
  Keeps s t ∨ (s.isOpenSRTPSock fd = true ∧ s.connAt fd = none ∧ (Sound s → Sound t))

theorem fd2conn_of_isOpen {s : Sockets} {fd : ℤ} (h : s.isOpenSRTPSock fd = true) :
    s.fd2conn fd ≠ none := by
  unfold isOpenSRTPSock at h
  simp only [Bool.and_eq_true] at h
  intro hn
  simp [hn] at h

theorem Effect.tables {s t : Sockets} {fd : ℤ} (he : Effect fd s t) (h : Tables s) : Tables t := by
  rcases he with hk | ⟨ho, hn, -⟩
  · exact h.keeps hk
  · obtain ⟨id, c, hc, -⟩ := h.connAt (fd2conn_of_isOpen ho)
    rw [hn] at hc
    cases hc

theorem Effect.sound {s t : Sockets} {fd : ℤ} (he : Effect fd s t) (h : Sound s) : Sound t := by
  rcases he with hk | ⟨-, -, hs⟩
  · exact h.keeps hk
  · exact hs h

/-- Code after the open check that dereferences the connection. -/
theorem effect_deref {s u : Sockets} {fd : ℤ} {k : ℕ → ConnT → Sockets → Sockets}
    (ho : s.isOpenSRTPSock fd = true) (hu : Keeps s u) (hat : u.connAt fd = s.connAt fd)
    (hk : ∀ id c, s.heap id = some c → Keeps s (k id c u)) : Effect fd s (u.deref fd k) := by
  cases hc : s.connAt fd with
  | none =>
    rw [deref_of_none (hat.trans hc)]
    exact Or.inr ⟨ho, hc, fun h => (h.keeps hu).crash fd _⟩
  | some p =>
    obtain ⟨id, c⟩ := p
    rw [deref_of_connAt (hat.trans hc)]
    exact Or.inl (hk id c (connAt_eq_some.mp hc).2)

theorem effect_bind (fd : ℤ) (address : Option Bytes) (s : Sockets) :
    Effect fd s (s.srtpBind fd address) := by
  rcases srtpBind_cases fd address s with ⟨he, -⟩ | ⟨ho, hn, he⟩ | ⟨id, c, bs, -, hat, -, he⟩
  · rw [he]
    exact Or.inl ((Keeps.refl s).ret _)
  · rw [he]
    exact Or.inr ⟨ho, hn, fun h => h.crash fd _⟩
  · rw [he]
    have h1 : Keeps s (s.setConn id (c.bound bs)) :=
      (Keeps.refl s).setConn (connAt_eq_some.mp hat).2 rfl
    left
    split_ifs
    · exact h1.overflow
    · exact h1.ret _

theorem effect_listen (junk : ℕ → Junk) (fd : ℤ) (sockOk bindOk : Bool) (tid : ℕ) (buffer : Bytes)
    (s : Sockets) : Effect fd s (s.srtpListen junk fd sockOk bindOk tid buffer) := by
  unfold srtpListen
  by_cases ho : s.isOpenSRTPSock fd = true
  · rw [if_neg (by simp [ho])]
    refine effect_deref ho (Keeps.refl s) rfl fun id c hc => ?_
    have h1 : Keeps s ((s.openUdp sockOk).setConn id { c with sock := some (s.udpFd sockOk) }) :=
      ((Keeps.refl s).openUdp sockOk).setConn hc (by rfl)
    dsimp only
    split_ifs
    · exact h1.ret _
    · exact (h1.observe _).ret _
    · exact (((h1.observe _).setConn hc (by rfl)).servers _).ret _
  · rw [if_pos (by simpa using ho)]
    exact Or.inl ((Keeps.refl s).ret _)

theorem connAt_openUdp (s : Sockets) (ok : Bool) (fd : ℤ) :
    (s.openUdp ok).connAt fd = s.connAt fd := by
  unfold openUdp
  split_ifs <;> rfl

theorem effect_connect (fd : ℤ) (address : Option Bytes) (sockOk connOk established : Bool)
    (tid : ℕ) (s : Sockets) :
    Effect fd s (s.srtpConnect fd address sockOk connOk established tid) := by
  unfold srtpConnect
  by_cases ho : s.isOpenSRTPSock fd = true
  · rw [if_neg (by simp [ho])]
    have h0 := (Keeps.refl s).openUdp sockOk
    by_cases hv : (!isValidIPAddress address) = true
    · rw [if_pos hv]
      exact Or.inl ((Keeps.refl s).ret _)
    · rw [if_neg hv]
      by_cases hcon : (!(sockOk && connOk)) = true
      · rw [if_pos hcon]
        exact Or.inl (h0.ret _)
      · rw [if_neg hcon]
        refine effect_deref ho h0 (connAt_openUdp s sockOk fd) fun id c hc => ?_
        dsimp only
        split_ifs
        · exact (h0.setConn hc (by rfl)).overflow
        · exact ((h0.setConn hc (by rfl)).closeFd _).ret _
        · exact ((h0.setConn hc (by rfl)).setConn hc (by rfl)).ret _
  · rw [if_pos (by simpa using ho)]
    exact Or.inl ((Keeps.refl s).ret _)

/-! ## New sockets and closed ones -/

theorem Sound.srtpSocket {s : Sockets} (h : Sound s) (tries : ℕ) (opens : Bool) :
    Sound (s.srtpSocket tries opens) := by
  unfold Sockets.srtpSocket
  dsimp only
  split_ifs
  · refine ⟨fun id hid => ?_, fun fd id hp => ?_, h.newConns⟩
    · have hlt : s.next < id := hid
      show StdMap.put s.heap s.next _ id = none
      rw [StdMap.put_of_ne (by omega)]
      exact h.heap id hlt.le
    · show id < s.next + 1
      rcases StdMap.insert_eq_some hp with hp | ⟨-, -, e⟩
      · exact (h.pointer fd id hp).trans (Nat.lt_succ_self _)
      · cases e
        exact Nat.lt_succ_self _
  · exact ⟨h.heap, h.pointer, h.newConns⟩

/-- Entries of `fd2conn` stay as they are when a socket is made. -/
theorem fd2conn_srtpSocket {s : Sockets} {fd : ℤ} {p : Option ℕ} (h : s.fd2conn fd = some p)
    (tries : ℕ) (opens : Bool) : (s.srtpSocket tries opens).fd2conn fd = some p := by
  unfold srtpSocket
  dsimp only
  split_ifs
  · show StdMap.insert s.fd2conn _ _ fd = some p
    by_cases hfd : fd = (lowestFree s.files : ℤ)
    · rw [← hfd, StdMap.insert_self, h]
      rfl
    · rw [StdMap.insert_of_ne hfd, h]
  · exact h

/-- The connection of a new socket whose descriptor is not a key. -/
theorem connAt_new {s : Sockets} (h : s.fd2conn (lowestFree s.files) = none) (tries : ℕ) :
    (s.srtpSocket tries true).connAt (lowestFree s.files) =
      some (s.next, ConnT.fresh (lowestFree s.files) (fifoName (s.fifoId + tries))) := by
  refine connAt_eq_some.mpr ⟨?_, StdMap.put_self⟩
  show StdMap.insert s.fd2conn _ (some s.next) _ = _
  rw [StdMap.insert_self, h]
  rfl

theorem Tables.srtpSocket {s : Sockets} (h : Tables s) (hs : Sound s) (tries : ℕ) (opens : Bool) :
    Tables (s.srtpSocket tries opens) := by
  have hhash : ∀ ip fd, (s.srtpSocket tries opens).hash2fd ip = some fd →
      (s.srtpSocket tries opens).fd2conn fd ≠ none := by
    intro ip fd hip
    have hip' : s.hash2fd ip = some fd := by
      unfold Sockets.srtpSocket at hip
      cases opens <;> exact hip
    obtain ⟨p, hp⟩ := Option.ne_none_iff_exists'.mp (h.hash ip fd hip')
    rw [fd2conn_srtpSocket hp]
    simp
  refine ⟨?_, hhash, ?_⟩
  · cases opens with
    | false => exact h.conn
    | true =>
      intro fd p hp
      rcases StdMap.insert_eq_some hp with hp | ⟨rfl, -, rfl⟩
      · obtain ⟨id, c, rfl, hc, hfd⟩ := h.conn fd p hp
        have hne : id ≠ s.next := by
          rintro rfl
          rw [hs.heap s.next le_rfl] at hc
          cases hc
        exact ⟨id, c, rfl, (StdMap.put_of_ne hne).trans hc, hfd⟩
      · exact ⟨s.next, _, rfl, StdMap.put_self, rfl⟩
  · cases opens <;> exact h.fault

/-- `_srtp_close`: nothing happens, there is a fault, or the socket and its connection are gone. -/
theorem srtpClose_cases (junk : ℕ → Junk) (fd : ℤ) (s : Sockets) :
    (s.isOpenSRTPSock fd = false ∧ Keeps s (s.srtpClose junk fd)) ∨
      (s.isOpenSRTPSock fd = true ∧ s.connAt fd = none ∧ (Sound s → Sound (s.srtpClose junk fd))) ∨
      ∃ id c, s.isOpenSRTPSock fd = true ∧ s.connAt fd = some (id, c) ∧
        (s.srtpClose junk fd).fd2conn = StdMap.erase s.fd2conn fd ∧
        (s.srtpClose junk fd).heap = StdMap.erase s.heap id ∧
        (s.srtpClose junk fd).hash2fd = s.hash2fd ∧
        (s.srtpClose junk fd).next = s.next ∧ (s.srtpClose junk fd).newConns = s.newConns ∧
        (s.srtpClose junk fd).fault = s.fault := by
  unfold srtpClose
  by_cases ho : s.isOpenSRTPSock fd = true
  · rw [if_neg (by simp [ho])]
    right
    have hat : (s.closeFd fd).connAt fd = s.connAt fd := rfl
    cases hc : s.connAt fd with
    | none =>
      rw [deref_of_none (hat.trans hc)]
      have hcl : Sound s → Sound (s.closeFd fd) := fun h => ⟨h.heap, h.pointer, h.newConns⟩
      exact Or.inl ⟨ho, rfl, fun h => (hcl h).crash fd _⟩
    | some p =>
      obtain ⟨id, c⟩ := p
      rw [deref_of_connAt (hat.trans hc)]
      refine Or.inr ⟨id, c, ho, rfl, ?_⟩
      dsimp only
      split_ifs <;> exact ⟨rfl, rfl, rfl, rfl, rfl, rfl⟩
  · rw [if_pos (by simpa using ho)]
    exact Or.inl ⟨by simpa using ho, (Keeps.refl s).ret _⟩

theorem Sound.srtpClose {s : Sockets} (h : Sound s) (junk : ℕ → Junk) (fd : ℤ) :
    Sound (s.srtpClose junk fd) := by
  rcases srtpClose_cases junk fd s with ⟨-, hk⟩ | ⟨-, -, hs⟩ | ⟨id, c, -, -, hm, hh, -, hn, hq, -⟩
  · exact h.keeps hk
  · exact hs h
  · refine ⟨fun i hi => ?_, fun x i hp => ?_, hq.trans h.newConns⟩
    · rw [hh]
      by_cases hid : i = id
      · rw [hid, StdMap.erase_self]
      · rw [StdMap.erase_of_ne hid]
        exact h.heap i (hn ▸ hi)
    · rw [hm] at hp
      rw [hn]
      exact h.pointer x i (StdMap.erase_eq_some hp).2

/-- A close keeps the tables in order exactly if no sender is recorded with that descriptor. -/
theorem tables_srtpClose_iff {s : Sockets} (h : Tables s) (junk : ℕ → Junk) (fd : ℤ) :
    Tables (s.srtpClose junk fd) ↔ (s.isOpenSRTPSock fd = true → ∀ ip, s.hash2fd ip ≠ some fd) := by
  rcases srtpClose_cases junk fd s with ⟨ho, hk⟩ | ⟨ho, hn, -⟩
    | ⟨id, c, ho, hc, hm, hh, hx, -, -, hf⟩
  · exact iff_of_true (h.keeps hk) fun h1 => by rw [ho] at h1; cases h1
  · obtain ⟨id, c, hc, -⟩ := h.connAt (fd2conn_of_isOpen ho)
    rw [hn] at hc
    cases hc
  · constructor
    · intro ht _ ip hip
      have := ht.hash ip fd (by rw [hx]; exact hip)
      rw [hm, StdMap.erase_self] at this
      exact this rfl
    · intro hno
      refine ⟨fun x p hp => ?_, fun ip x hip => ?_, by rw [hf]; exact h.fault⟩
      · rw [hm] at hp
        obtain ⟨hx, hp⟩ := StdMap.erase_eq_some hp
        obtain ⟨i, c', rfl, hc', hfd⟩ := h.conn x p hp
        -- the block of another descriptor is another block
        have hi : i ≠ id := by
          rintro rfl
          obtain ⟨h1, h2⟩ := connAt_eq_some.mp hc
          obtain ⟨i', c₂, e, hc₂, hfd₂⟩ := h.conn fd _ h1
          cases e
          rw [hc₂] at hc'
          cases hc'
          exact hx (hfd.symm.trans hfd₂)
        exact ⟨i, c', rfl, by rw [hh, StdMap.erase_of_ne hi]; exact hc', hfd⟩
      · rw [hx] at hip
        have hne : x ≠ fd := by
          rintro rfl
          exact hno ho ip hip
        rw [hm, StdMap.erase_of_ne hne]
        exact h.hash ip x hip

/-! ## Datagrams -/

section Datagrams

variable (bo : ByteOrder) (junk : ℕ → Junk) (v : Server) (d : Datagram)

theorem keeps_handlePkt {s : Sockets} {id : ℕ} {c c₀ : ConnT} (hc : s.heap id = some c₀)
    (hf : c.fifo = c₀.fifo) : Keeps s (s.handlePkt bo junk v d id c) := by
  have h0 := (Keeps.refl s).observe (.handled d.src id)
  unfold handlePkt
  dsimp only
  split_ifs
  · split
    · exact ((h0.setConn hc (by exact hf)).observe _).observe _
    · exact (h0.setConn hc (by exact hf)).observe _
  · exact h0

theorem fd2conn_lookup (s : Sockets) (ip : UInt32) :
    (s.lookup ip).fd2conn ((s.hash2fd ip).getD 0) =
      some (s.fd2conn ((s.hash2fd ip).getD 0)).join := by
  show StdMap.insert s.fd2conn _ none _ = _
  rw [StdMap.insert_self]
  cases s.fd2conn ((s.hash2fd ip).getD 0) with
  | none => rfl
  | some p => rfl

/-- A datagram of a sender that has a connection. -/
theorem recvSrtpData_known {s : Sockets} {id : ℕ} {c : ConnT}
    (hc : s.connAt ((s.hash2fd d.srcAddr.ip).getD 0) = some (id, c)) :
    (s.recvSrtpData bo junk v d).1 = (s.record d.srcAddr.ip 0).handlePkt bo junk v d id c := by
  obtain ⟨h1, -⟩ := connAt_eq_some.mp hc
  have hlook : s.lookup d.srcAddr.ip = s.record d.srcAddr.ip 0 :=
    touch_of_some (s := s.record d.srcAddr.ip 0) h1
  have hjoin : ((s.lookup d.srcAddr.ip).fd2conn ((s.hash2fd d.srcAddr.ip).getD 0)).join =
      some id := by
    rw [fd2conn_lookup, h1]
    rfl
  unfold recvSrtpData
  dsimp only
  rw [hjoin, hlook]
  exact deref_of_connAt (s := s.record d.srcAddr.ip 0) hc _

/-- A datagram of a sender that has none. -/
theorem recvSrtpData_new {s : Sockets}
    (hc : (s.fd2conn ((s.hash2fd d.srcAddr.ip).getD 0)).join = none) :
    (s.recvSrtpData bo junk v d).1 =
      ((s.lookup d.srcAddr.ip).srtpSocket d.tries d.opens).deref
        ((s.lookup d.srcAddr.ip).socketFd d.opens)
        (adopt bo junk v d ((s.lookup d.srcAddr.ip).socketFd d.opens)) := by
  have hjoin : ((s.lookup d.srcAddr.ip).fd2conn ((s.hash2fd d.srcAddr.ip).getD 0)).join = none := by
    rw [fd2conn_lookup, hc]
    rfl
  unfold recvSrtpData
  dsimp only
  rw [hjoin]

theorem keeps_adopt {s : Sockets} (fd : ℤ) {id : ℕ} {c : ConnT} (hc : s.heap id = some c) :
    Keeps (s.record d.srcAddr.ip fd) (adopt bo junk v d fd id c s) := by
  have h1 : Keeps (s.record d.srcAddr.ip fd)
      ((s.setConn id { c with addr := d.srcAddr.bytes bo, addrLen := some bufferSize }).record
      d.srcAddr.ip fd) :=
    (Keeps.refl (s.record d.srcAddr.ip fd)).setConn hc (by rfl)
  exact h1.trans (keeps_handlePkt bo junk v d StdMap.put_self rfl)

/-- A datagram of a sender whose connection has been deleted. -/
theorem recvSrtpData_dangling {s : Sockets} {id : ℕ}
    (h1 : s.fd2conn ((s.hash2fd d.srcAddr.ip).getD 0) = some (some id))
    (h2 : s.heap id = none) :
    (s.recvSrtpData bo junk v d).1 =
      ((s.record d.srcAddr.ip 0).touch ((s.hash2fd d.srcAddr.ip).getD 0)).crash .badConn := by
  have hlook : s.lookup d.srcAddr.ip = s.record d.srcAddr.ip 0 :=
    touch_of_some (s := s.record d.srcAddr.ip 0) h1
  have hjoin : ((s.lookup d.srcAddr.ip).fd2conn ((s.hash2fd d.srcAddr.ip).getD 0)).join =
      some id := by
    rw [fd2conn_lookup, h1]
    rfl
  have hnone : (s.record d.srcAddr.ip 0).connAt ((s.hash2fd d.srcAddr.ip).getD 0) = none := by
    show ((s.fd2conn ((s.hash2fd d.srcAddr.ip).getD 0)).join.bind fun i => (s.heap i).map fun c =>
      (i, c)) = none
    rw [h1, Option.join_some, Option.bind_some, h2]
    rfl
  unfold recvSrtpData
  dsimp only
  rw [hjoin, hlook]
  exact deref_of_none hnone _

/-- What a datagram can do: it is handled with a connection that is there, or a socket is made for
it, and the code goes on with that connection or has a fault. -/
theorem recvSrtpData_cases (s : Sockets) :
    (∃ id c, s.connAt ((s.hash2fd d.srcAddr.ip).getD 0) = some (id, c) ∧
        Keeps (s.record d.srcAddr.ip 0) (s.recvSrtpData bo junk v d).1) ∨
      (∃ id, s.fd2conn ((s.hash2fd d.srcAddr.ip).getD 0) = some (some id) ∧ s.heap id = none ∧
        (s.recvSrtpData bo junk v d).1 =
          ((s.record d.srcAddr.ip 0).touch ((s.hash2fd d.srcAddr.ip).getD 0)).crash .badConn) ∨
      ((s.fd2conn ((s.hash2fd d.srcAddr.ip).getD 0)).join = none ∧
        ((∃ fd, Keeps (((s.lookup d.srcAddr.ip).srtpSocket d.tries d.opens).record d.srcAddr.ip fd)
            (s.recvSrtpData bo junk v d).1) ∨
          ∃ fd, (s.recvSrtpData bo junk v d).1 =
            (((s.lookup d.srcAddr.ip).srtpSocket d.tries d.opens).touch fd).crash .badConn)) := by
  cases hj : (s.fd2conn ((s.hash2fd d.srcAddr.ip).getD 0)).join with
  | none =>
    refine Or.inr (Or.inr ⟨rfl, ?_⟩)
    rw [recvSrtpData_new bo junk v d hj]
    cases hc : ((s.lookup d.srcAddr.ip).srtpSocket d.tries d.opens).connAt
      ((s.lookup d.srcAddr.ip).socketFd d.opens) with
    | none => exact Or.inr ⟨_, deref_of_none hc _⟩
    | some p =>
      rw [deref_of_connAt hc]
      exact Or.inl ⟨_, keeps_adopt bo junk v d _ (connAt_eq_some.mp hc).2⟩
  | some id =>
    have hfd := Option.join_eq_some_iff.mp hj
    cases hc : s.heap id with
    | some c =>
      have hat := connAt_eq_some.mpr ⟨hfd, hc⟩
      rw [recvSrtpData_known bo junk v d hat]
      exact Or.inl ⟨id, c, hat, keeps_handlePkt bo junk v d hc rfl⟩
    | none => exact Or.inr (Or.inl ⟨id, hfd, hc, recvSrtpData_dangling bo junk v d hfd hc⟩)

theorem Sound.record {s : Sockets} (h : Sound s) (ip : UInt32) (fd : ℤ) : Sound (s.record ip fd) :=
  ⟨h.heap, h.pointer, h.newConns⟩

theorem Sound.lookup {s : Sockets} (h : Sound s) (ip : UInt32) : Sound (s.lookup ip) := by
  have h1 := (h.record ip 0).crash ((s.hash2fd ip).getD 0) .badConn
  exact ⟨h1.heap, h1.pointer, h1.newConns⟩

theorem Sound.recvSrtpData {s : Sockets} (h : Sound s) : Sound (s.recvSrtpData bo junk v d).1 := by
  have h1 := h.record d.srcAddr.ip 0
  have h2 := h.lookup d.srcAddr.ip
  have h3 := h2.srtpSocket d.tries d.opens
  rcases recvSrtpData_cases bo junk v d s with ⟨id, c, -, hk⟩ | ⟨id, -, -, he⟩
    | ⟨-, ⟨fd, hk⟩ | ⟨fd, he⟩⟩
  · exact h1.keeps hk
  · rw [he]
    exact h1.crash _ _
  · exact (h3.record d.srcAddr.ip fd).keeps hk
  · rw [he]
    exact h3.crash _ _

/-- The entry that the look-up of an unknown sender makes is still there afterwards. -/
theorem fd2conn_recvSrtpData {s : Sockets}
    (hj : (s.fd2conn ((s.hash2fd d.srcAddr.ip).getD 0)).join = none) :
    (s.recvSrtpData bo junk v d).1.fd2conn ((s.hash2fd d.srcAddr.ip).getD 0) = some none := by
  have h1 : (s.lookup d.srcAddr.ip).fd2conn ((s.hash2fd d.srcAddr.ip).getD 0) = some none := by
    rw [fd2conn_lookup, hj]
  have h2 := fd2conn_srtpSocket h1 d.tries d.opens
  rcases recvSrtpData_cases bo junk v d s with ⟨id, c, hc, -⟩ | ⟨id, hc, -⟩
    | ⟨-, ⟨fd, hk⟩ | ⟨fd, he⟩⟩
  · rw [(connAt_eq_some.mp hc).1] at hj
    cases hj
  · rw [hc] at hj
    cases hj
  · rw [hk.fd2conn]
    exact h2
  · rw [he]
    show StdMap.insert _ fd none _ = some none
    by_cases hfd : (s.hash2fd d.srcAddr.ip).getD 0 = fd
    · rw [← hfd, StdMap.insert_self, h2]
      rfl
    · rw [StdMap.insert_of_ne hfd, h2]

/-- A datagram keeps the tables in order exactly if its sender is recorded or descriptor 0 is an
SRTP socket. -/
theorem tables_recvSrtpData_iff {s : Sockets} (h : Tables s) :
    Tables (s.recvSrtpData bo junk v d).1 ↔ s.hash2fd d.srcAddr.ip ≠ none ∨ s.fd2conn 0 ≠ none := by
  constructor
  · intro ht
    by_contra hno
    push Not at hno
    obtain ⟨hip, h0⟩ := hno
    have hj : (s.fd2conn ((s.hash2fd d.srcAddr.ip).getD 0)).join = none := by
      rw [hip]
      show (s.fd2conn 0).join = none
      rw [h0]
      rfl
    obtain ⟨id, c, e, -⟩ := ht.conn _ _ (fd2conn_recvSrtpData bo junk v d hj)
    cases e
  · intro hok
    have hkey : s.fd2conn ((s.hash2fd d.srcAddr.ip).getD 0) ≠ none := by
      cases hip : s.hash2fd d.srcAddr.ip with
      | none => exact hok.resolve_left fun hn => hn hip
      | some fd => exact h.hash _ fd hip
    obtain ⟨id, c, hc, -⟩ := h.connAt hkey
    rw [recvSrtpData_known bo junk v d hc]
    have h1 : Tables (s.record d.srcAddr.ip 0) := by
      refine ⟨h.conn, fun ip fd hip => ?_, h.fault⟩
      rcases StdMap.insert_eq_some hip with hip | ⟨-, hnone, rfl⟩
      · exact h.hash ip fd hip
      · exact hok.resolve_left fun hn => hn hnone
    exact h1.keeps (keeps_handlePkt bo junk v d (connAt_eq_some.mp hc).2 rfl)

end Datagrams

/-! ## Whole runs -/

section Runs

variable {bo : ByteOrder} {junk : ℕ → Junk} {s t : Sockets} {e : Call}

/-- Nothing is ever announced, so `_srtp_accept` on an open socket waits for ever. -/
theorem Sound.srtpAccept {fd : ℤ} {addressLen : Option ℕ} (h : Sound s)
    (hs : s.srtpAccept junk fd addressLen = some t) : t = s.ret (-1) := by
  unfold Sockets.srtpAccept at hs
  rw [h.newConns] at hs
  split_ifs at hs
  exact (Option.some.inj hs).symm

/-- A datagram is handled with the buffer it has been stored in. -/
theorem datagram_of_step {k : ℕ} {d : Datagram} (hs : s.step bo junk (.datagram k d) = some t) :
    ∃ v : Server, t =
      (recvSrtpData bo junk (v.store d.bytes) d
        { s with servers := s.servers.set k (v.store d.bytes) }).1 := by
  unfold Sockets.step at hs
  split_ifs at hs
  obtain ⟨v, -, rfl⟩ := Option.map_eq_some_iff.mp hs
  exact ⟨v, serverProxy_eq bo junk k v d s⟩

/-- What a step does in a state in which nothing is announced. -/
inductive Trans (bo : ByteOrder) (junk : ℕ → Junk) (s : Sockets) : Call → Sockets → Prop
  | socket (tries : ℕ) (opens : Bool) :
    Trans bo junk s (.socket tries opens) ((s.srtpSocket tries opens).ret (s.socketFd opens))
  | bind (fd : ℤ) (address : Option Bytes) :
      Trans bo junk s (.bind fd address) (s.srtpBind fd address)
  | listen (fd : ℤ) (sockOk bindOk : Bool) (tid : ℕ) (buffer : Bytes) :
    Trans bo junk s (.listen fd sockOk bindOk tid buffer)
    (s.srtpListen junk fd sockOk bindOk tid buffer)
  | connect (fd : ℤ) (address : Option Bytes) (sockOk connOk established : Bool) (tid : ℕ) :
    Trans bo junk s (.connect fd address sockOk connOk established tid)
      (s.srtpConnect fd address sockOk connOk established tid)
  | accept (fd : ℤ) (addressLen : Option ℕ) : Trans bo junk s (.accept fd addressLen) (s.ret (-1))
  | close (fd : ℤ) : Trans bo junk s (.close fd) (s.srtpClose junk fd)
  | osClose (fd : ℤ) : Trans bo junk s (.osClose fd) (s.closeFd fd)
  | datagram (k : ℕ) (d : Datagram) (v : Server) :
    Trans bo junk s (.datagram k d)
      (recvSrtpData bo junk (v.store d.bytes) d
        { s with servers := s.servers.set k (v.store d.bytes) }).1

theorem trans_of_step (h : Sound s) (hs : s.step bo junk e = some t) :
    s.fault = none ∧ Trans bo junk s e t := by
  have hs' := hs
  unfold Sockets.step at hs
  split_ifs at hs with hf
  refine ⟨by simpa using hf, ?_⟩
  cases e with
  | accept fd addressLen =>
    obtain rfl := h.srtpAccept hs
    exact .accept fd addressLen
  | datagram k d =>
    obtain ⟨v, rfl⟩ := datagram_of_step hs'
    exact .datagram k d v
  | _ =>
    obtain rfl := Option.some.inj hs
    constructor

theorem Sound.step (h : Sound s) (hs : s.step bo junk e = some t) : Sound t := by
  obtain ⟨-, htrans⟩ := trans_of_step h hs
  cases htrans with
  | socket tries opens =>
    have h1 := h.srtpSocket tries opens
    exact ⟨h1.heap, h1.pointer, h1.newConns⟩
  | bind fd address => exact (effect_bind fd address s).sound h
  | listen fd sockOk bindOk tid buffer =>
    exact (effect_listen junk fd sockOk bindOk tid buffer s).sound h
  | connect fd address sockOk connOk established tid =>
    exact (effect_connect fd address sockOk connOk established tid s).sound h
  | accept fd addressLen => exact ⟨h.heap, h.pointer, h.newConns⟩
  | close fd => exact h.srtpClose junk fd
  | osClose fd => exact ⟨h.heap, h.pointer, h.newConns⟩
  | datagram k d v =>
    have h1 : Sound { s with servers := s.servers.set k (v.store d.bytes) } :=
      ⟨h.heap, h.pointer, h.newConns⟩
    exact h1.recvSrtpData bo junk (v.store d.bytes) d

theorem sound_init (files : List ℕ) :
    Sound (init files) := ⟨fun _ _ => rfl, fun _ _ h => (by cases h), rfl⟩

/-- The steps that keep the tables in order. -/
def InOrder (s : Sockets) : Call → Prop
  | .datagram _ d => s.hash2fd d.srcAddr.ip ≠ none ∨ s.fd2conn 0 ≠ none
  | .close fd => s.isOpenSRTPSock fd = true → ∀ ip, s.hash2fd ip ≠ some fd
  | _ => True

/-- **One step.** -/
theorem tables_step_iff (hs : Sound s) (h : Tables s) (ht : s.step bo junk e = some t) :
    Tables t ↔ s.InOrder e := by
  obtain ⟨-, htrans⟩ := trans_of_step hs ht
  cases htrans with
  | socket tries opens =>
    have h1 := h.srtpSocket hs tries opens
    exact iff_of_true ⟨h1.conn, h1.hash, h1.fault⟩ trivial
  | bind fd address => exact iff_of_true ((effect_bind fd address s).tables h) trivial
  | listen fd sockOk bindOk tid buffer =>
    exact iff_of_true ((effect_listen junk fd sockOk bindOk tid buffer s).tables h) trivial
  | connect fd address sockOk connOk established tid =>
    exact iff_of_true ((effect_connect fd address sockOk connOk established tid s).tables h) trivial
  | accept fd addressLen => exact iff_of_true ⟨h.conn, h.hash, h.fault⟩ trivial
  | close fd => exact tables_srtpClose_iff h junk fd
  | osClose fd => exact iff_of_true ⟨h.conn, h.hash, h.fault⟩ trivial
  | datagram k d v =>
    have h1 : Tables { s with servers := s.servers.set k (v.store d.bytes) } :=
      ⟨h.conn, h.hash, h.fault⟩
    exact tables_recvSrtpData_iff bo junk (v.store d.bytes) d h1

theorem tables_init (files : List ℕ) : Tables (init files) :=
  ⟨fun _ _ h => (by cases h), fun _ _ h => (by cases h), by simp [init]⟩

end Runs

/-- **The tables over whole runs**: in a run from an empty table the tables are in order in every
state exactly if no datagram comes from an unrecorded address while descriptor 0 is not an SRTP
socket, and no socket is closed that `hash2fd` records. -/
theorem tables_always_iff (bo : ByteOrder) (junk : ℕ → Junk) (files : List ℕ) (es : List Call)
    (t : Sockets) (h : Machine.exec (step bo junk) (init files) es = some t) :
    Machine.Always (step bo junk) Tables (init files) es ↔
      Machine.Meets (step bo junk) InOrder (init files) es :=
  Machine.always_iff_meets (fun _ _ _ => Sound.step) (fun _ _ _ => tables_step_iff)
    (sound_init files)
    (tables_init files) h

/-- Blocks that hold zeros, and a datagram of one data byte from `127.0.0.1`. -/
def zeroJunk (_ : ℕ) : Junk := ⟨0, 0, [], 0, 0⟩

def oneByte (port : UInt16) : Datagram :=
  let src := ⟨0x0100007f, port⟩
  ⟨src, src.sockaddrIn, [1, 0, 0, 0, 0, 0, 0, 0] ++ List.replicate 8 0 ++ [65], fun _ => 0, 0, true⟩

/-- A socket is made, bound and made to listen; 0, 1 and 2 are the standard streams. -/
def listening : List Call :=
  [.socket 0 true, .bind 3 (some (Source.sockaddr .little ⟨0, 3000⟩)), .listen 3 true true 7 []]

/-- Descriptor 0 is the first SRTP socket, and handles a datagram; another socket is closed. -/
def onZero : List Call :=
  [.socket 0 true, .bind 0 (some (Source.sockaddr .little ⟨0, 3000⟩)), .listen 0 true true 7 [],
    .socket 0 true, .datagram 0 (oneByte 4000), .close 4]

theorem tables_always_close :
    ∃ t, Machine.exec (step .little zeroJunk) (init [1, 2]) onZero = some t ∧
    t.hash2fd 0x0100007f = some 0 ∧ Machine.Always (step .little zeroJunk) Tables
      (init [1, 2]) onZero := by
  obtain ⟨t, ht, hip⟩ : ∃ t, Machine.exec (step .little zeroJunk) (init [1, 2]) onZero = some t ∧
      t.hash2fd 0x0100007f = some 0 := ⟨_, rfl, rfl⟩
  refine ⟨t, ht, hip, (tables_always_iff .little zeroJunk [1, 2] _ t ht).mpr ?_⟩
  refine .cons rfl trivial (.cons rfl trivial (.cons rfl trivial (.cons rfl trivial (.cons rfl ?_
    (.cons rfl ?_ trivial)))))
  · exact Or.inr (by decide)
  · intro _ ip h
    rcases StdMap.insert_eq_some h with h | ⟨-, -, h⟩ <;> cases h

/-- The first datagram puts `NULL` at descriptor 0. -/
theorem datagram_breaks_tables : ∃ t,
    Machine.exec (step .little zeroJunk) (init [0, 1, 2])
    (listening ++ [.datagram 0 (oneByte 4000)]) = some t ∧
      t.fd2conn 0 = some none ∧
      ¬ Machine.Always (step .little zeroJunk) Tables (init [0, 1, 2])
      (listening ++ [.datagram 0 (oneByte 4000)]) := by
  obtain ⟨t, ht, h0⟩ : ∃ t,
      Machine.exec (step .little zeroJunk) (init [0, 1, 2])
      (listening ++ [.datagram 0 (oneByte 4000)]) = some t ∧
        t.fd2conn 0 = some none := ⟨_, rfl, rfl⟩
  refine ⟨t, ht, h0, fun hall => ?_⟩
  obtain ⟨id, c, e, -⟩ := (hall _ [] t (List.append_nil _).symm ht).conn 0 none h0
  cases e

end Sockets

end FortyTwoHundred.Srtp
