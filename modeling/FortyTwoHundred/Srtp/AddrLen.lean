import FortyTwoHundred.Srtp.Tables

/-!
# AddrLen — the lengths of the stored addresses

A `Conn_t` has room for one `sockaddr_in`, and `addr_len` says how much of it is used.  It is set at
four places.  `server_proxy` sets it to the size of a `sockaddr_in`; `_srtp_bind` to what the
caller says, after a copy of as many bytes; `recv_srtp_data` to the size of the receive buffer; and
`_srtp_accept` to what the caller has in `*address_len`, which it should have stored there instead.

`Kept` says of a step what is expected: lengths stay within a `sockaddr_in`, and so do the copies; a
peer's address goes out with its length, and the connection stays as it is.  `addr_len_iff` says
which steps of a run have to be left out for that.  `recv_srtp_data` never returns, so the code of
`server_proxy` after it is not reached; runs may have it all the same, since `_srtp_accept` gives
out nothing without it.
-/

namespace FortyTwoHundred.Srtp

/-- `addr` and `addr_len`. -/
def ConnT.address (c : ConnT) : Bytes × Option ℕ := (c.addr, c.addrLen)

/-- Neither `_srtp_connect` nor the closing of a descriptor. -/
def Call.addressing : Call → Bool
  | .connect _ _ _ _ _ _ => false
  | .close _ => false
  | .osClose _ => false
  | _ => true

/-- `*address_len` after a call: nothing is stored there. -/
def Call.addressLen : Call → Option ℕ
  | .accept _ n => n
  | _ => none

inductive AddrEvent
  | call (e : Call) (h : e.addressing = true)
  /-- `server_proxy` goes on with a datagram of `n` bytes -/
  | announced (k : ℕ) (d : Datagram) (n : ℤ)

namespace Sockets

def addrStep (bo : ByteOrder) (junk : ℕ → Junk) (s : Sockets) : AddrEvent → Option Sockets
  | .call e _ => s.step bo junk e
  | .announced k d n =>
    if s.fault.isSome then none
    else ((s.servers[k]?).filter s.receives).map fun v => s.announce bo (v.store d.bytes) d n

/-! ## What is expected, and when -/

/-- What the callers of `_srtp_listen` and `_srtp_accept` get: `bind` is given no more than a
`sockaddr_in`, and `_srtp_accept` gives out the address of the first connection in the queue, with
its length, and leaves it as it is. -/
def Served (junk : ℕ → Junk) (s t : Sockets) : AddrEvent → Prop
  | .call (.listen fd _ _ _ _) _ =>
    s.isOpenSRTPSock fd = true → ∀ id c, s.connAt fd = some (id, c) →
    c.readAddrLen (junk id) ≤ sockaddrSize
  | .call (.accept fd (some n)) _ =>
    s.isOpenSRTPSock fd = true → ∀ fifo rest, s.newConns = fifo :: rest → ∃ id c len,
      s.connAt fifo = some (id, c) ∧ c.addrLen = some len ∧
      t.log = s.log ++ [.address (c.addr.take len), .ret fifo] ∧
      t.connAt fifo = some (id, c) ∧ (Call.accept fd (some n)).addressLen = some len
  | _ => True

/-- The step from `s` to `t` does what is expected. -/
structure Kept (junk : ℕ → Junk) (s : Sockets) (e : AddrEvent) (t : Sockets) : Prop where
  lens : ∀ id c n, t.heap id = some c → c.addrLen = some n → n ≤ sockaddrSize
  copies : t.fault ≠ some .overflow
  served : Served junk s t e

/-- The steps that do. -/
def Fits (junk : ℕ → Junk) (s : Sockets) : AddrEvent → Prop
  | .call (.bind fd address) _ =>
    s.isOpenSRTPSock fd = true → s.connAt fd ≠ none → ∀ bs, address = some bs →
    bs.length ≤ sockaddrSize
  | .call (.listen fd _ _ _ _) _ =>
    s.isOpenSRTPSock fd = true → ∀ id c, s.connAt fd = some (id, c) → c.addrLen = none →
      (junk id).addrLen ≤ sockaddrSize
  | .call (.accept fd (some n)) _ =>
    s.isOpenSRTPSock fd = true → ∀ fifo rest, s.newConns = fifo :: rest →
    ∀ id c, s.connAt fifo = some (id, c) →
      c.addrLen = some n
  | .call (.datagram _ d) _ =>
    -- no connection is made for the sender
    (s.fd2conn ((s.hash2fd d.srcAddr.ip).getD 0)).join = none → d.opens = true →
      (s.lookup d.srcAddr.ip).fd2conn (lowestFree s.files) = some none
  | _ => True

/-- What holds as long as all steps do. -/
structure Addressed (s : Sockets) : Prop where
  len : ∀ id c n, s.heap id = some c → c.addrLen = some n → n ≤ sockaddrSize ∧ n ≤ c.addr.length
  heap : ∀ id, s.next ≤ id → s.heap id = none
  pointer : ∀ fd id, s.fd2conn fd = some (some id) → s.heap id ≠ none
  failed : ∀ id, s.fd2conn (-1) ≠ some (some id)
  queue : ∀ fifo ∈ s.newConns, ∃ id c, s.connAt fifo = some (id, c) ∧ c.addrLen ≠ none
  fault : s.fault ≠ some .overflow

theorem addressed_init (files : List ℕ) : Addressed (init files) :=
  ⟨fun _ _ _ h => (by cases h), fun _ _ => rfl, fun _ _ h => (by cases h), fun _ h => (by cases h),
    fun _ h => (by cases h), fun h => (by cases h)⟩

/-- Where the caller gets nothing, the state says it all. -/
theorem Addressed.kept {junk : ℕ → Junk} {s t : Sockets} {e : AddrEvent} (h : Addressed t)
    (hs : Served junk s t e) : Kept junk s e t :=
  ⟨fun id c n hc hn => (h.len id c n hc hn).1, h.fault, hs⟩

/-! ## Steps that leave the addresses as they are -/

/-- The addresses of the connections, and how they are found, stay as they are. -/
structure SameAddr (s t : Sockets) : Prop where
  fd2conn : t.fd2conn = s.fd2conn
  newConns : t.newConns = s.newConns
  next : t.next = s.next
  heap : ∀ id, (t.heap id).map ConnT.address = (s.heap id).map ConnT.address
  fault : t.fault = s.fault

section Same

variable {s t : Sockets}

theorem SameAddr.refl (s : Sockets) : SameAddr s s := ⟨rfl, rfl, rfl, fun _ => rfl, rfl⟩

theorem SameAddr.observe (h : SameAddr s t) (o : Obs) : SameAddr s (t.observe o) :=
  ⟨h.fd2conn, h.newConns, h.next, h.heap, h.fault⟩

theorem SameAddr.openUdp (h : SameAddr s t) (ok : Bool) : SameAddr s (t.openUdp ok) := by
  cases ok <;> exact ⟨h.fd2conn, h.newConns, h.next, h.heap, h.fault⟩

theorem SameAddr.servers (h : SameAddr s t) (vs : List Server) :
    SameAddr s { t with servers := vs } :=
  ⟨h.fd2conn, h.newConns, h.next, h.heap, h.fault⟩

/-- A connection is written that has the address it had. -/
theorem SameAddr.setConn (h : SameAddr s t) {id : ℕ} {c c' : ConnT} (hc : s.heap id = some c)
    (ha : c'.address = c.address) : SameAddr s (t.setConn id c') :=
  ⟨h.fd2conn, h.newConns, h.next, StdMap.map_put h.heap hc ha, h.fault⟩

theorem Addressed.same (h : Addressed s) (hk : SameAddr s t) : Addressed t := by
  refine ⟨fun id c' n hc' hn => ?_, fun id hid => ?_, fun fd id hp hnone => ?_, fun id => ?_,
    fun fifo hf => ?_,
    hk.fault ▸ h.fault⟩
  · obtain ⟨c, hc, ha⟩ := StdMap.exists_of_map_eq (hk.heap id).symm hc'
    obtain ⟨h1, h2⟩ := Prod.mk.inj ha
    rw [← h1]
    exact h.len id c n hc (h2.trans hn)
  · exact StdMap.eq_none_of_map_eq (hk.heap id) (h.heap id (hk.next ▸ hid))
  · exact h.pointer fd id (hk.fd2conn ▸ hp) (StdMap.eq_none_of_map_eq (hk.heap id).symm hnone)
  · rw [hk.fd2conn]
    exact h.failed id
  · obtain ⟨id, c, hat, hset⟩ := h.queue fifo (hk.newConns ▸ hf)
    obtain ⟨h1, hc⟩ := connAt_eq_some.mp hat
    obtain ⟨c', hc', ha⟩ := StdMap.exists_of_map_eq (hk.heap id) hc
    refine ⟨id, c', connAt_eq_some.mpr ⟨hk.fd2conn ▸ h1, hc'⟩, ?_⟩
    rw [(Prod.mk.inj ha).2]
    exact hset

theorem sameAddr_handlePkt (bo : ByteOrder) (junk : ℕ → Junk) (v : Server) (d : Datagram)
    {id : ℕ} {c : ConnT} (hc : s.heap id = some c) : SameAddr s (s.handlePkt bo junk v d id c) := by
  have h0 := (SameAddr.refl s).observe (.handled d.src id)
  unfold handlePkt
  dsimp only
  split_ifs
  · split
    · exact ((h0.setConn hc (by rfl)).observe _).observe _
    · exact (h0.setConn hc (by rfl)).observe _
  · exact h0

end Same

/-! ## What changes them -/

section Changes

variable {s : Sockets}

theorem Addressed.record (h : Addressed s) (ip : UInt32) (fd : ℤ) : Addressed (s.record ip fd) :=
  ⟨h.len, h.heap, h.pointer, h.failed, h.queue, h.fault⟩

/-- A connection that is in the table is found after a read of it. -/
theorem connAt_touch {fd x : ℤ} {p : ℕ × ConnT} (h : s.connAt fd = some p) :
    (s.touch x).connAt fd = some p := by
  obtain ⟨h1, h2⟩ := connAt_eq_some.mp h
  refine connAt_eq_some.mpr ⟨?_, h2⟩
  show StdMap.insert s.fd2conn x none fd = _
  by_cases hx : fd = x
  · rw [← hx, StdMap.insert_self, h1]
    rfl
  · rw [StdMap.insert_of_ne hx, h1]

theorem Addressed.touch (h : Addressed s) (fd : ℤ) : Addressed (s.touch fd) := by
  have hold : ∀ x id, (s.touch fd).fd2conn x = some (some id) → s.fd2conn x = some (some id) := by
    intro x id hp
    rcases StdMap.insert_eq_some hp with hp | ⟨-, -, e⟩
    · exact hp
    · cases e
  refine ⟨h.len, h.heap, fun x id hp => h.pointer x id (hold x id hp),
    fun id hp => h.failed id (hold _ id hp),
    fun fifo hf => ?_, h.fault⟩
  obtain ⟨id, c, hat, hset⟩ := h.queue fifo hf
  exact ⟨id, c, connAt_touch hat, hset⟩

theorem Addressed.badConn (h : Addressed s) (fd : ℤ) : Addressed ((s.touch fd).crash .badConn) := by
  have h1 := h.touch fd
  exact ⟨h1.len, h1.heap, h1.pointer, h1.failed, h1.queue, fun e => by cases e⟩

theorem Addressed.lookup (h : Addressed s) (ip : UInt32) :
    Addressed (s.lookup ip) := (h.record ip 0).touch _

/-- An address is stored with a length it has. -/
theorem Addressed.setConn (h : Addressed s) {id n : ℕ} {c c' : ConnT} (hc : s.heap id = some c)
    (hset : c'.addrLen = some n) (hsize : n ≤ sockaddrSize) (hlen : n ≤ c'.addr.length) :
    Addressed (s.setConn id c') := by
  refine ⟨fun i d m hd hm => ?_, fun i hi => ?_, fun fd i hp hnone => ?_, h.failed,
    fun fifo hf => ?_, h.fault⟩
  · rcases StdMap.put_eq_some hd with ⟨rfl, rfl⟩ | ⟨-, hd⟩
    · cases hset.symm.trans hm
      exact ⟨hsize, hlen⟩
    · exact h.len i d m hd hm
  · have hold := h.heap i hi
    have hne : i ≠ id := by
      rintro rfl
      rw [hold] at hc
      cases hc
    exact (StdMap.put_of_ne hne).trans hold
  · by_cases hi : i = id
    · subst hi
      cases StdMap.put_self.symm.trans hnone
    · exact h.pointer fd i hp ((StdMap.put_of_ne hi).symm.trans hnone)
  · obtain ⟨i, d, hat, hd⟩ := h.queue fifo hf
    obtain ⟨h1, h2⟩ := connAt_eq_some.mp hat
    by_cases hi : i = id
    · subst hi
      exact ⟨i, c', connAt_eq_some.mpr ⟨h1, StdMap.put_self⟩, by simp [hset]⟩
    · exact ⟨i, d, connAt_eq_some.mpr ⟨h1, (StdMap.put_of_ne hi).trans h2⟩, hd⟩

/-- A connection that is in the table is found after a socket has been made. -/
theorem connAt_srtpSocket (hnext : s.heap s.next = none) {fd : ℤ} {id : ℕ} {c : ConnT}
    (h : s.connAt fd = some (id, c)) (tries : ℕ) (opens : Bool) :
    (s.srtpSocket tries opens).connAt fd = some (id, c) := by
  obtain ⟨h1, h2⟩ := connAt_eq_some.mp h
  refine connAt_eq_some.mpr ⟨fd2conn_srtpSocket h1 tries opens, ?_⟩
  have hne : id ≠ s.next := by
    rintro rfl
    rw [hnext] at h2
    cases h2
  unfold srtpSocket
  cases opens with
  | false => exact h2
  | true => exact (StdMap.put_of_ne hne).trans h2

theorem Addressed.srtpSocket (h : Addressed s) (tries : ℕ) (opens : Bool) :
    Addressed (s.srtpSocket tries opens) := by
  have hqueue : ∀ fifo ∈ (s.srtpSocket tries opens).newConns, ∃ id c,
      (s.srtpSocket tries opens).connAt fifo = some (id, c) ∧ c.addrLen ≠ none := by
    intro fifo hf
    have hf' : fifo ∈ s.newConns := by
      unfold Sockets.srtpSocket at hf
      cases opens <;> exact hf
    obtain ⟨id, c, hat, hset⟩ := h.queue fifo hf'
    exact ⟨id, c, connAt_srtpSocket (h.heap _ le_rfl) hat tries opens, hset⟩
  cases opens with
  | false => exact ⟨h.len, h.heap, h.pointer, h.failed, hqueue, h.fault⟩
  | true =>
    refine ⟨fun id c n hc hn => ?_, fun id hid => ?_, fun fd id hp hnone => ?_, fun id hp => ?_,
      hqueue, h.fault⟩
    · rcases StdMap.put_eq_some hc with ⟨rfl, rfl⟩ | ⟨-, hc⟩
      · cases hn
      · exact h.len id c n hc hn
    · have hlt : s.next < id := hid
      exact (StdMap.put_of_ne hlt.ne').trans (h.heap id hlt.le)
    · by_cases hi : id = s.next
      · subst hi
        cases StdMap.put_self.symm.trans hnone
      · rcases StdMap.insert_eq_some hp with hp | ⟨-, -, e⟩
        · exact h.pointer fd id hp ((StdMap.put_of_ne hi).symm.trans hnone)
        · cases e
          exact hi rfl
    · have hins : StdMap.insert s.fd2conn (lowestFree s.files : ℤ) (some s.next)
        (-1) = some (some id) := hp
      rcases StdMap.insert_eq_some hins with hp | ⟨e, -, -⟩
      · exact h.failed id hp
      · omega

end Changes

/-! ## The calls -/

/-- The step does what is expected exactly if it fits, and then the next one can be looked at. -/
structure Exact (junk : ℕ → Junk) (s : Sockets) (e : AddrEvent) (t : Sockets) : Prop where
  iff : Kept junk s e t ↔ Fits junk s e
  next : Fits junk s e → Addressed t

section Calls

variable {bo : ByteOrder} {junk : ℕ → Junk} {s t : Sockets} {e : AddrEvent}

theorem Exact.of_addressed (h : Addressed t) (hserved : Served junk s t e) (hfits : Fits junk s e) :
    Exact junk s e t :=
  ⟨iff_of_true (h.kept hserved) hfits, fun _ => h⟩

theorem Exact.of_not (hkept : ¬ Kept junk s e t) (hfits : ¬ Fits junk s e) : Exact junk s e t :=
  ⟨iff_of_false hkept hfits, fun h => absurd h hfits⟩

theorem Addressed.ret (h : Addressed s) (v : ℤ) :
    Addressed (s.ret v) := h.same ((SameAddr.refl s).observe _)

/-- `_srtp_bind`: a longer address is copied past the end. -/
theorem exact_bind (h : Addressed s) (fd : ℤ) (address : Option Bytes)
    (ha : (Call.bind fd address).addressing = true) :
    Exact junk s (.call (.bind fd address) ha) (s.srtpBind fd address) := by
  rcases srtpBind_cases fd address s with ⟨he, hinvalid⟩ | ⟨-, hn, he⟩
    | ⟨id, c, bs, ho, hat, rfl, he⟩
  · rw [he]
    refine .of_addressed (h.ret _) trivial fun ho _ bs e => ?_
    -- an address that is not valid is empty
    subst e
    have hzero : ¬ 0 < bs.length := of_decide_eq_false (hinvalid ho)
    omega
  · rw [he]
    exact .of_addressed (h.badConn fd) trivial fun _ hat => absurd hn hat
  · rw [he]
    by_cases hlong : sockaddrSize < bs.length
    · rw [if_pos hlong]
      refine .of_not (fun hk => hk.copies rfl) fun hf => ?_
      exact absurd (hf ho (by simp [hat]) bs rfl) (by omega)
    · rw [if_neg hlong]
      have hlen : bs.length ≤ ((overlay bs c.addr).take sockaddrSize).length := by
        rw [overlay, List.length_take, List.length_append]
        omega
      have h1 := h.setConn (connAt_eq_some.mp hat).2 (by rfl :
        (c.bound bs).addrLen = some bs.length) (by omega) hlen
      refine .of_addressed (h1.ret _) trivial fun _ _ bs' e => ?_
      obtain rfl := Option.some.inj e
      omega

theorem sameAddr_listen (fd : ℤ) (sockOk bindOk : Bool) (tid : ℕ) (buffer : Bytes) :
    SameAddr s (s.srtpListen junk fd sockOk bindOk tid buffer) ∨
      s.srtpListen junk fd sockOk bindOk tid buffer = (s.touch fd).crash .badConn := by
  unfold srtpListen
  by_cases ho : (!s.isOpenSRTPSock fd) = true
  · rw [if_pos ho]
    exact Or.inl ((SameAddr.refl s).observe _)
  · rw [if_neg ho]
    cases hat : s.connAt fd with
    | none => exact Or.inr (deref_of_none hat _)
    | some p =>
      obtain ⟨id, c⟩ := p
      have hc := (connAt_eq_some.mp hat).2
      have h1 : SameAddr s
          ((s.openUdp sockOk).setConn id { c with sock := some (s.udpFd sockOk) }) :=
        ((SameAddr.refl s).openUdp sockOk).setConn hc (by rfl)
      rw [deref_of_connAt hat]
      left
      dsimp only
      split_ifs
      · exact h1.observe _
      · exact (h1.observe _).observe _
      · exact (((h1.observe _).setConn hc (by rfl)).servers _).observe _

/-- `_srtp_listen` uses the length that is stored, or whatever the block held. -/
theorem exact_listen (h : Addressed s) (fd : ℤ) (sockOk bindOk : Bool) (tid : ℕ) (buffer : Bytes)
    (ha : (Call.listen fd sockOk bindOk tid buffer).addressing = true) :
    Exact junk s (.call (.listen fd sockOk bindOk tid buffer) ha)
      (s.srtpListen junk fd sockOk bindOk tid buffer) := by
  have ht : Addressed (s.srtpListen junk fd sockOk bindOk tid buffer) := by
    rcases sameAddr_listen fd sockOk bindOk tid buffer with hsame | hcrash
    · exact h.same hsame
    · rw [hcrash]
      exact h.badConn fd
  refine ⟨⟨fun hk ho id c hat hnone => ?_, fun hf => ht.kept fun ho id c hat => ?_⟩, fun _ => ht⟩
  · have := hk.served ho id c hat
    rwa [ConnT.readAddrLen, hnone] at this
  · cases hset : c.addrLen with
    | none =>
      rw [ConnT.readAddrLen, hset]
      exact hf ho id c hat hset
    | some n =>
      rw [ConnT.readAddrLen, hset]
      exact (h.len id c n (connAt_eq_some.mp hat).2 hset).1

/-- A set address is read as it has been set. -/
theorem Addressed.readAddr (h : Addressed s) {id n : ℕ} {c : ConnT} (hc : s.heap id = some c)
    (hset : c.addrLen = some n) (j : Junk) :
    (c.readAddr j).take (c.readAddrLen j) = c.addr.take n := by
  have hread : c.readAddrLen j = n := by rw [ConnT.readAddrLen, hset, Option.getD_some]
  rw [hread, ConnT.readAddr, overlay, List.take_append_of_le_length (h.len id c n hc hset).2]

/-- `_srtp_accept`: the address goes out, and the caller's length is stored. -/
theorem srtpAccept_eq (h : Addressed s) {fd fifo : ℤ} {rest : List ℤ} {id m : ℕ} {c : ConnT}
    (ho : s.isOpenSRTPSock fd = true) (hq : s.newConns = fifo :: rest)
    (hat : s.connAt fifo = some (id, c)) (hm : c.addrLen = some m) (n : ℕ) :
    s.srtpAccept junk fd (some n) =
      some (((({ s with newConns := rest } : Sockets).observe (.address (c.addr.take m))).setConn id
        { c with addrLen := some n }).ret fifo) := by
  have hc := (connAt_eq_some.mp hat).2
  have hread : c.readAddrLen (junk id) = m := by rw [ConnT.readAddrLen, hm, Option.getD_some]
  have hsize := (h.len id c m hc hm).1
  unfold srtpAccept
  rw [if_neg (by simp [ho]), hq]
  dsimp only
  rw [deref_of_connAt (by exact hat), h.readAddr hc hm, hread, if_neg (by omega)]

/-- It is written back as it was exactly if that is the length it had. -/
theorem exact_accept_first {fd fifo : ℤ} {rest : List ℤ} {id m : ℕ} {c : ConnT}
    (ho : s.isOpenSRTPSock fd = true) (hq : s.newConns = fifo :: rest)
    (hat : s.connAt fifo = some (id, c)) (hm : c.addrLen = some m) (n : ℕ)
    (ha : (Call.accept fd (some n)).addressing = true)
    (h1 : Addressed { s with newConns := rest }) : Exact junk s (.call (.accept fd (some n)) ha)
      (((({ s with newConns := rest } : Sockets).observe (.address (c.addr.take m))).setConn id
        { c with addrLen := some n }).ret fifo) := by
  -- the first connection of the queue is this one
  have hfirst : ∀ {x r i d}, s.newConns = x :: r → s.connAt x = some (i, d) → d = c := by
    intro x r i d hx hd
    obtain ⟨rfl, -⟩ := List.cons.inj (hq.symm.trans hx)
    exact (Prod.mk.inj (Option.some.inj (hd.symm.trans hat))).2
  by_cases hnm : n = m
  · subst hnm
    have hsame : ({ c with addrLen := some n } : ConnT) = c := by rw [← hm]
    rw [hsame]
    obtain ⟨hfd, hc⟩ := connAt_eq_some.mp hat
    refine .of_addressed (h1.same ?_) ?_ ?_
    · exact (((SameAddr.refl { s with newConns := rest }).observe _).setConn hc rfl).observe _
    · intro _ x r hx
      obtain ⟨rfl, -⟩ := List.cons.inj (hq.symm.trans hx)
      refine ⟨id, c, n, hat, hm, ?_, connAt_eq_some.mpr ⟨hfd, StdMap.put_self⟩, rfl⟩
      exact List.append_assoc _ _ _
    · intro _ x r hx i d hd
      rw [hfirst hx hd, hm]
  · refine .of_not (fun hk => hnm ?_) fun hf => hnm ?_
    · obtain ⟨i, d, len, hd, hlen, -, -, e⟩ := hk.served ho fifo rest hq
      rw [hfirst hq hd, hm] at hlen
      exact Option.some.inj (e.trans hlen.symm)
    · exact Option.some.inj ((hf ho fifo rest hq id c hat).symm.trans hm)

theorem exact_accept (h : Addressed s) (fd : ℤ) (addressLen : Option ℕ)
    (ha : (Call.accept fd addressLen).addressing = true)
    (hs : s.srtpAccept junk fd addressLen = some t) :
    Exact junk s (.call (.accept fd addressLen) ha) t := by
  by_cases ho : s.isOpenSRTPSock fd = true
  · cases hq : s.newConns with
    | nil =>
      unfold srtpAccept at hs
      rw [if_neg (by simp [ho]), hq] at hs
      cases hs
    | cons fifo rest =>
      have h1 : Addressed { s with newConns := rest } :=
        ⟨h.len, h.heap, h.pointer, h.failed,
          fun x hx => h.queue x (by rw [hq]; exact List.mem_cons_of_mem _ hx), h.fault⟩
      cases addressLen with
      | none =>
        unfold srtpAccept at hs
        rw [if_neg (by simp [ho]), hq] at hs
        obtain rfl := Option.some.inj hs
        exact .of_addressed ((h1.touch fifo).ret _) trivial trivial
      | some n =>
        obtain ⟨id, c, hat, hne⟩ := h.queue fifo (by rw [hq]; exact List.mem_cons_self)
        obtain ⟨m, hm⟩ := Option.ne_none_iff_exists'.mp hne
        rw [srtpAccept_eq h ho hq hat hm n] at hs
        obtain rfl := Option.some.inj hs
        exact exact_accept_first ho hq hat hm n ha h1
  · unfold srtpAccept at hs
    rw [if_pos (by simpa using ho)] at hs
    obtain rfl := Option.some.inj hs
    cases addressLen with
    | none => exact .of_addressed (h.ret _) trivial trivial
    | some n => exact .of_addressed (h.ret _) (fun ho' => absurd ho' ho) fun ho' => absurd ho' ho

/-- A connection that is made for a sender gets the size of the buffer as its length. -/
theorem adopt_addrLen (v : Server) (d : Datagram) (fd : ℤ) (id : ℕ) (c : ConnT) :
    ∃ c', (adopt bo junk v d fd id c s).heap id = some c' ∧ c'.addrLen = some bufferSize := by
  have hput : ((s.setConn id { c with
    addr := d.srcAddr.bytes bo
    addrLen := some bufferSize }).record d.srcAddr.ip fd).heap id =
      some { c with addr := d.srcAddr.bytes bo, addrLen := some bufferSize } := StdMap.put_self
  obtain ⟨c', hc', ha⟩ := StdMap.exists_of_map_eq ((sameAddr_handlePkt bo junk v d hput).heap id)
    hput
  exact ⟨c', hc', (Prod.mk.inj ha).2⟩

/-- The socket that has just been made has no connection: it could not be made, or its descriptor
was in the table with `NULL`. -/
theorem connAt_new_eq_none_iff (h : Addressed s) (tries : ℕ) (opens : Bool) :
    (s.srtpSocket tries opens).connAt (s.socketFd opens) = none ↔
      (opens = true → s.fd2conn (lowestFree s.files) = some none) := by
  cases opens with
  | false =>
    refine iff_of_true ?_ fun e => by cases e
    cases hat : (s.srtpSocket tries false).connAt (s.socketFd false) with
    | none => rfl
    | some p => exact absurd (connAt_eq_some.mp hat).1 (h.failed p.1)
  | true =>
    show (s.srtpSocket tries true).connAt (lowestFree s.files) = none ↔ _
    cases hfd : s.fd2conn (lowestFree s.files) with
    | none => simp [connAt_new hfd tries]
    | some p =>
      cases p with
      | none =>
        refine iff_of_true ?_ fun _ => rfl
        unfold connAt
        rw [fd2conn_srtpSocket hfd]
        rfl
      | some id =>
        obtain ⟨c, hc⟩ := Option.ne_none_iff_exists'.mp (h.pointer _ id hfd)
        have hat := connAt_srtpSocket (h.heap _ le_rfl) (connAt_eq_some.mpr ⟨hfd, hc⟩) tries true
        simp [hat]

/-- `recv_srtp_data`. -/
theorem exact_datagram (h : Addressed s) (v : Server) (k : ℕ) (d : Datagram)
    (ha : (Call.datagram k d).addressing = true) :
    Exact junk s (.call (.datagram k d) ha) (s.recvSrtpData bo junk v d).1 := by
  cases hj : (s.fd2conn ((s.hash2fd d.srcAddr.ip).getD 0)).join with
  | some id =>
    have hfd := Option.join_eq_some_iff.mp hj
    obtain ⟨c, hc⟩ := Option.ne_none_iff_exists'.mp (h.pointer _ id hfd)
    rw [recvSrtpData_known bo junk v d (connAt_eq_some.mpr ⟨hfd, hc⟩)]
    refine .of_addressed ((h.record d.srcAddr.ip 0).same ?_) trivial fun hn => ?_
    · exact sameAddr_handlePkt (s := s.record d.srcAddr.ip 0) bo junk v d hc
    · rw [hj] at hn
      cases hn
  | none =>
    have h1 := h.lookup d.srcAddr.ip
    have h2 := h1.srtpSocket d.tries d.opens
    have hnew := connAt_new_eq_none_iff h1 d.tries d.opens
    rw [recvSrtpData_new bo junk v d hj]
    cases hat : ((s.lookup d.srcAddr.ip).srtpSocket d.tries d.opens).connAt
      ((s.lookup d.srcAddr.ip).socketFd d.opens) with
    | none =>
      rw [deref_of_none hat]
      exact .of_addressed (h2.badConn _) trivial fun _ => hnew.mp hat
    | some p =>
      obtain ⟨id, c⟩ := p
      rw [deref_of_connAt hat]
      refine .of_not (fun hk => ?_) fun hf => ?_
      · obtain ⟨c', hc', hlen⟩ := adopt_addrLen v d ((s.lookup d.srcAddr.ip).socketFd d.opens) id c
        exact absurd (hk.lens id c' bufferSize hc' hlen) (by decide)
      · rw [hnew.mpr (hf hj)] at hat
        cases hat

/-- `server_proxy` stores an address with its own length, and puts the socket into the queue. -/
theorem Addressed.announce (h : Addressed s) (v : Server) (d : Datagram) (n : ℤ) :
    Addressed (s.announce bo v d n) := by
  unfold Sockets.announce
  cases hip : s.hash2fd d.srcAddr.ip with
  | some fifo => exact h.same ((SameAddr.refl s).observe _)
  | none =>
    have h1 := h.srtpSocket d.tries d.opens
    dsimp only
    cases hat : (s.srtpSocket d.tries d.opens).connAt (s.socketFd d.opens) with
    | none =>
      rw [deref_of_none hat]
      exact h1.badConn _
    | some p =>
      obtain ⟨id, c⟩ := p
      rw [deref_of_connAt hat]
      obtain ⟨hfd, hc⟩ := connAt_eq_some.mp hat
      have h2 : Addressed ((s.srtpSocket d.tries d.opens).setConn id
          { c with addr := d.srcAddr.bytes bo, addrLen := some sockaddrSize }) :=
        h1.setConn hc rfl le_rfl (d.srcAddr.length_bytes bo).ge
      refine ⟨h2.len, h2.heap, h2.pointer, h2.failed, fun fifo hf => ?_, h2.fault⟩
      rcases List.mem_append.mp hf with hf | hf
      · exact h2.queue fifo hf
      · obtain rfl := List.mem_singleton.mp hf
        exact ⟨id, _, connAt_eq_some.mpr ⟨hfd, StdMap.put_self⟩, by simp⟩

/-- **One step.** -/
theorem exact_step (h : Addressed s) (hs : s.addrStep bo junk e = some t) : Exact junk s e t := by
  cases e with
  | announced k d n =>
    unfold addrStep at hs
    dsimp only at hs
    split_ifs at hs
    obtain ⟨v, -, rfl⟩ := Option.map_eq_some_iff.mp hs
    exact .of_addressed (h.announce _ d n) trivial trivial
  | call e ha =>
    have hstep : s.step bo junk e = some t := hs
    have hcall := hstep
    unfold step at hcall
    split_ifs at hcall
    cases e with
    | datagram k d =>
      obtain ⟨v, rfl⟩ := datagram_of_step hstep
      have h1 : Addressed { s with servers := s.servers.set k (v.store d.bytes) } :=
        h.same ((SameAddr.refl s).servers _)
      obtain ⟨hiff, hnext⟩ : Exact junk { s with servers := s.servers.set k (v.store d.bytes) }
          (.call (.datagram k d) ha)
          (recvSrtpData bo junk (v.store d.bytes) d
          { s with servers := s.servers.set k (v.store d.bytes) }).1 :=
        exact_datagram h1 (v.store d.bytes) k d ha
      exact ⟨⟨fun hk => hiff.mp ⟨hk.lens, hk.copies, trivial⟩, fun hf => (hnext hf).kept trivial⟩,
        hnext⟩
    | accept fd addressLen => exact exact_accept h fd addressLen ha hcall
    | socket tries opens =>
      obtain rfl := Option.some.inj hcall
      exact .of_addressed ((h.srtpSocket tries opens).ret _) trivial trivial
    | bind fd address =>
      obtain rfl := Option.some.inj hcall
      exact exact_bind h fd address ha
    | listen fd sockOk bindOk tid buffer =>
      obtain rfl := Option.some.inj hcall
      exact exact_listen h fd sockOk bindOk tid buffer ha
    | _ => cases ha

end Calls

/-- **The lengths of addresses over whole runs**: in a run from an empty table every step keeps the
lengths and the copies within a `sockaddr_in`, and every `_srtp_accept` gives out an address with
its length and leaves the connection as it is, if and only if no longer address is bound, no socket
listens whose address is not set (unless the block held a length that fits), no connection is made
for a datagram in `recv_srtp_data`, and `*address_len` is already the length of the address that
`_srtp_accept` gives out. -/
theorem addr_len_iff (bo : ByteOrder) (junk : ℕ → Junk) (files : List ℕ) (es : List AddrEvent)
    (u : Sockets) (h : Machine.exec (addrStep bo junk) (init files) es = some u) :
    Machine.Meets (addrStep bo junk)
    (fun s e => ∀ t, s.addrStep bo junk e = some t → Kept junk s e t) (init files) es ↔
      Machine.Meets (addrStep bo junk) (Fits junk) (init files) es := by
  refine Machine.meets_congr_exec (J := Addressed)
    (fun s e t hJ hf ht => (exact_step hJ ht).next hf) ?_
    (addressed_init files) h
  intro s e t hJ ht
  rw [← (exact_step hJ ht).iff]
  constructor
  · intro hk
    exact hk t ht
  · intro hk t' ht'
    exact Option.some.inj (ht.symm.trans ht') ▸ hk

/-- A socket is made, bound and made to listen. -/
def serving : List AddrEvent :=
  [.call (.socket 0 true) rfl, .call (.bind 3 (some (Source.sockaddr .little ⟨0, 3000⟩))) rfl,
    .call (.listen 3 true true 7 []) rfl]

/-- A connection is announced, and accepted by a caller that knows the size of a `sockaddr_in`. -/
theorem addr_len_sixteen :
    Machine.Meets (addrStep .little zeroJunk)
      (fun s e => ∀ t, s.addrStep .little zeroJunk e = some t → Kept zeroJunk s e t)
      (init [0, 1, 2]) (serving ++
        [.announced 0 (oneByte 4000) 17, .call (.accept 3 (some 16)) rfl]) := by
  obtain ⟨u, hu⟩ : ∃ u, Machine.exec (addrStep .little zeroJunk) (init [0, 1, 2])
      (serving ++ [.announced 0 (oneByte 4000) 17, .call (.accept 3 (some 16)) rfl]) = some u :=
      ⟨_, rfl⟩
  refine (addr_len_iff .little zeroJunk [0, 1, 2] _ u hu).mpr ?_
  refine .cons rfl trivial (.cons rfl ?_ (.cons rfl ?_ (.cons rfl trivial (.cons rfl ?_ trivial))))
  · rintro - - bs ⟨⟩
    decide
  · rintro - id c ⟨⟩ ⟨⟩
  · rintro - fifo rest ⟨⟩ id c ⟨⟩
    rfl

/-- A bound address of 17 bytes, and the first datagram of a sender.  The third run, of a caller of
`_srtp_accept` with more room, is none of the program: it starts with the announcement that
`server_proxy` does not get to. -/
theorem addr_len_out_of_range :
    (∃ t c, Machine.exec (addrStep .little zeroJunk) (init [0, 1, 2])
        [.call (.socket 0 true) rfl, .call (.bind 3 (some (List.replicate 17 0))) rfl] = some t ∧
      t.fault = some .overflow ∧ t.heap 0 = some c ∧ c.addrLen = some 17) ∧
    (∃ t c, Machine.exec (addrStep .little zeroJunk) (init [0, 1, 2])
        (serving ++ [.call (.datagram 0 (oneByte 4000)) rfl]) = some t ∧ t.heap 1 = some c ∧
        c.addrLen = some 2048) ∧
    (∃ t c, Machine.exec (addrStep .little zeroJunk) (init [0, 1, 2])
        (serving ++ [.announced 0 (oneByte 4000) 17, .call (.accept 3 (some 100)) rfl]) = some t ∧
      t.heap 1 = some c ∧ c.addrLen = some 100 ∧ (Call.accept 3 (some 100)).addressLen ≠ some 16) ∧
    ¬ Machine.Meets (addrStep .little zeroJunk)
      (fun s e => ∀ t, s.addrStep .little zeroJunk e = some t → Kept zeroJunk s e t)
      (init [0, 1, 2]) (serving ++ [.call (.datagram 0 (oneByte 4000)) rfl]) := by
  refine ⟨⟨_, _, rfl, rfl, rfl, rfl⟩, ⟨_, _, rfl, rfl, rfl⟩, ⟨_, _, rfl, rfl, rfl, by decide⟩,
    fun hm => ?_⟩
  have hkept := (((hm.2 _ rfl).2 _ rfl).2 _ rfl).1 _ rfl
  exact absurd (hkept.lens 1 _ 2048 rfl rfl) (by decide)

end Sockets

end FortyTwoHundred.Srtp
