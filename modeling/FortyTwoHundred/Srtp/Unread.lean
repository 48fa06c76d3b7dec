import FortyTwoHundred.Srtp.Demux

/-!
# Unread — what becomes of the datagrams at the listening sockets of a process

While descriptor 0 is open, `_srtp_socket` never returns it, and every sender looked up is recorded
with it.  So no datagram finds the connection of an earlier one: each has a socket made for it, and
what it carries is written to the fifo that was opened just then.  `_srtp_accept` gives out none of
these descriptors.  All this holds whatever calls the application makes in between, on however many
listening sockets.
-/

namespace FortyTwoHundred.Srtp

/-- What has been written to fifos, with their descriptors. -/
def writes (log : List Obs) : List (ℤ × Bytes) :=
  log.filterMap fun
    | .fifoWrite fd bytes => some (fd, bytes)
    | _ => none

namespace Sockets

/-- Senders are recorded with descriptor 0 only, and no connection has it; a connection knows its
descriptor. -/
structure Lost (s : Sockets) : Prop where
  hash : ∀ ip fd, s.hash2fd ip = some fd → fd = 0
  pointer : ∀ fd id, s.fd2conn fd = some (some id) → 0 < fd
  own : ∀ fd id c, s.fd2conn fd = some (some id) → s.heap id = some c → c.fifo = fd

/-- Nothing has been received on the way from `s` to `t`. -/
structure Aside (s t : Sockets) : Prop where
  lost : Lost t
  handled : handled t.log = handled s.log
  writes : writes t.log = writes s.log
  next : s.next ≤ t.next

section Closure

variable {s t : Sockets}

theorem lost_init (files : List ℕ) : Lost (init files) :=
  ⟨fun _ _ h => (by cases h), fun _ _ h => (by cases h), fun _ _ _ h => (by cases h)⟩

theorem Lost.zero (h : Lost s) : (s.fd2conn 0).join = none := by
  cases hj : (s.fd2conn 0).join with
  | none => rfl
  | some id => exact absurd (h.pointer 0 id (Option.join_eq_some_iff.mp hj)) (lt_irrefl 0)

theorem Lost.keeps (h : Lost s) (hk : Keeps s t) : Lost t := by
  refine ⟨fun ip fd hip => ?_, fun fd id hp => ?_, fun fd id c hp hc => ?_⟩
  · rw [hk.hash2fd] at hip
    exact h.hash ip fd hip
  · rw [hk.fd2conn] at hp
    exact h.pointer fd id hp
  · rw [hk.fd2conn] at hp
    obtain ⟨c₀, hc₀, hf⟩ := StdMap.exists_of_map_eq (hk.heap id).symm hc
    exact hf.symm.trans (h.own fd id c₀ hp hc₀)

theorem Lost.touch (h : Lost s) (fd : ℤ) : Lost (s.touch fd) := by
  have hold : ∀ x id, (s.touch fd).fd2conn x = some (some id) → s.fd2conn x = some (some id) := by
    intro x id hp
    rcases StdMap.insert_eq_some hp with hp | ⟨-, -, e⟩
    · exact hp
    · cases e
  exact ⟨h.hash, fun x id hp => h.pointer x id (hold x id hp),
    fun x id c hp => h.own x id c (hold x id hp)⟩

/-- Descriptor 0 is not handed out while it is open. -/
theorem lowestFree_pos (h0 : 0 ∈ s.files) : 0 < lowestFree s.files := by
  rw [lowestFree_eq]
  refine Nat.pos_of_ne_zero fun hz => Reassembly.missing_notMem s.files ?_
  rwa [hz]

theorem Lost.srtpSocket (h : Lost s) (hs : Sound s) (h0 : 0 ∈ s.files) (tries : ℕ) (opens : Bool) :
    Lost (s.srtpSocket tries opens) := by
  cases opens with
  | false => exact ⟨h.hash, h.pointer, h.own⟩
  | true =>
    refine ⟨h.hash, fun fd id hp => ?_, fun fd id c hp hc => ?_⟩
    · rcases StdMap.insert_eq_some hp with hp | ⟨rfl, -, -⟩
      · exact h.pointer fd id hp
      · exact_mod_cast lowestFree_pos h0
    · rcases StdMap.insert_eq_some hp with hp | ⟨rfl, -, e⟩
      · -- an entry that was there points to an older block
        have hlt := hs.pointer fd id hp
        have hc' : StdMap.put s.heap s.next _ id = some c := hc
        rw [StdMap.put_of_ne hlt.ne] at hc'
        exact h.own fd id c hp hc'
      · obtain rfl := Option.some.inj e
        have hc' : StdMap.put s.heap s.next _ s.next = some c := hc
        rw [StdMap.put_self] at hc'
        exact (Option.some.inj hc') ▸ rfl

theorem Lost.lookup (h : Lost s) (ip : UInt32) : Lost (s.lookup ip) := by
  have h1 : Lost (s.record ip 0) := by
    refine ⟨fun i fd hi => ?_, h.pointer, h.own⟩
    rcases StdMap.insert_eq_some hi with hi | ⟨-, -, e⟩
    · exact h.hash i fd hi
    · exact e
  exact h1.touch _

/-- A sender that is recorded keeps its entry. -/
theorem Lost.record (h : Lost s) {ip : UInt32} (hip : s.hash2fd ip ≠ none) (fd : ℤ) :
    Lost (s.record ip fd) := by
  refine ⟨fun i x hi => ?_, h.pointer, h.own⟩
  rcases StdMap.insert_eq_some hi with hi | ⟨-, hnone, -⟩
  · exact h.hash i x hi
  · exact absurd hnone hip

theorem Aside.refl (h : Lost s) : Aside s s := ⟨h, rfl, rfl, le_rfl⟩

theorem Aside.ite {p : Prop} [Decidable p] {u : Sockets} (ht : Aside s t) (hu : Aside s u) :
    Aside s (if p then t else u) := by
  split_ifs
  · exact ht
  · exact hu

theorem Aside.keeps {u : Sockets} (h : Aside s t) (hk : Keeps t u) (hlog : u.log = t.log) :
    Aside s u :=
  ⟨h.lost.keeps hk, by rw [hlog, h.handled], by rw [hlog, h.writes], by rw [hk.next]; exact h.next⟩

theorem Aside.openUdp (h : Aside s t) (ok : Bool) : Aside s (t.openUdp ok) :=
  h.keeps ((Keeps.refl t).openUdp ok) (by cases ok <;> rfl)

theorem Aside.setConn (h : Aside s t) {id : ℕ} {c c' : ConnT} (hc : t.heap id = some c)
    (hf : c'.fifo = c.fifo) : Aside s (t.setConn id c') :=
  h.keeps ((Keeps.refl t).setConn hc hf) rfl

theorem Aside.crash (h : Aside s t) (f : Fault) : Aside s (t.crash f) :=
  ⟨⟨h.lost.hash, h.lost.pointer, h.lost.own⟩, h.handled, h.writes, h.next⟩

theorem Aside.closeFd (h : Aside s t) (fd : ℤ) : Aside s (t.closeFd fd) :=
  ⟨⟨h.lost.hash, h.lost.pointer, h.lost.own⟩, h.handled, h.writes, h.next⟩

theorem Aside.servers (h : Aside s t) (vs : List Server) : Aside s { t with servers := vs } :=
  ⟨⟨h.lost.hash, h.lost.pointer, h.lost.own⟩, h.handled, h.writes, h.next⟩

theorem Aside.erase (h : Aside s t) (fd : ℤ) (id : ℕ) :
    Aside s { t with fd2conn := StdMap.erase t.fd2conn fd, heap := StdMap.erase t.heap id } := by
  refine ⟨⟨h.lost.hash, fun x i hp => ?_, fun x i c hp hc => ?_⟩, h.handled, h.writes, h.next⟩
  · exact h.lost.pointer x i (StdMap.erase_eq_some hp).2
  · exact h.lost.own x i c (StdMap.erase_eq_some hp).2 (StdMap.erase_eq_some hc).2

/-- Anything but a write to a fifo and the handling of a datagram may be observed. -/
theorem Aside.observe (h : Aside s t) (o : Obs) (hh : Srtp.handled [o] = [])
    (hw : Srtp.writes [o] = []) : Aside s (t.observe o) := by
  refine ⟨⟨h.lost.hash, h.lost.pointer, h.lost.own⟩, ?_, ?_, h.next⟩
  · show Srtp.handled (t.log ++ [o]) = _
    rw [Srtp.handled, List.filterMap_append]
    exact (congrArg₂ _ h.handled hh).trans (List.append_nil _)
  · show Srtp.writes (t.log ++ [o]) = _
    rw [Srtp.writes, List.filterMap_append]
    exact (congrArg₂ _ h.writes hw).trans (List.append_nil _)

theorem Aside.ret (h : Aside s t) (v : ℤ) : Aside s (t.ret v) := h.observe (.ret v) rfl rfl

theorem Aside.deref (h : Aside s t) {fd : ℤ} {k : ℕ → ConnT → Sockets → Sockets}
    (hk : ∀ id c u, t.fd2conn fd = some (some id) → u.heap id = some c → Aside s u →
      Aside s (k id c u)) :
    Aside s (t.deref fd k) := by
  have ht : Aside s (t.touch fd) := ⟨h.lost.touch fd, h.handled, h.writes, h.next⟩
  unfold Sockets.deref
  split
  · next id c hat => exact hk id c _ (connAt_eq_some.mp hat).1 (connAt_eq_some.mp hat).2 ht
  · exact ht.crash _

end Closure

/-! ## The calls -/

section Calls

variable {junk : ℕ → Junk} {s : Sockets} {fd : ℤ} (h : Lost s)
include h

theorem aside_bind (address : Option Bytes) : Aside s (s.srtpBind fd address) := by
  have h0 := Aside.refl h
  refine .ite (h0.ret _) (.ite (h0.ret _) (h0.deref fun id c u _ hc hu => ?_))
  have h1 : Aside s (u.setConn id (c.bound (address.getD []))) := hu.setConn hc rfl
  exact .ite (h1.crash _) (h1.ret _)

theorem aside_listen (sockOk bindOk : Bool) (tid : ℕ) (buffer : Bytes) :
    Aside s (s.srtpListen junk fd sockOk bindOk tid buffer) := by
  have h0 := Aside.refl h
  refine .ite (h0.ret _) (h0.deref fun id c u _ hc hu => ?_)
  have hc' : (u.openUdp sockOk).heap id = some c := by
    rw [← hc]
    cases sockOk <;> rfl
  have h1 : Aside s ((u.openUdp sockOk).setConn id { c with sock := some (u.udpFd sockOk) }) :=
    (hu.openUdp sockOk).setConn hc' rfl
  refine .ite (h1.ret _) ?_
  have h2 := h1.observe (.bind (u.udpFd sockOk)
    ((c.readAddr (junk id)).take (c.readAddrLen (junk id)))
    (c.readAddrLen (junk id))) rfl rfl
  refine .ite (h2.ret _) ?_
  have hput : StdMap.put (u.openUdp sockOk).heap id { c with sock := some (u.udpFd sockOk) } id =
      some { c with sock := some (u.udpFd sockOk) } := StdMap.put_self
  have hfifo : ConnT.fifo { c with sock := some (u.udpFd sockOk), tid := some tid } = c.fifo := rfl
  have h3 := h2.setConn hput hfifo
  exact (h3.servers _).ret 0

theorem aside_connect (address : Option Bytes) (sockOk connOk established : Bool) (tid : ℕ) :
    Aside s (s.srtpConnect fd address sockOk connOk established tid) := by
  have h0 := Aside.refl h
  have h1 := h0.openUdp sockOk
  refine .ite (h0.ret _) (.ite (h0.ret _) (.ite (h1.ret _) (h1.deref fun id c u _ hc hu => ?_)))
  let a := (overlay (address.getD []) c.addr).take sockaddrSize
  have h2 : Aside s (u.setConn id { c with addr := a, sock := some (s.udpFd sockOk) }) :=
    hu.setConn hc rfl
  have hput : StdMap.put u.heap id { c with addr := a, sock := some (s.udpFd sockOk) } id =
      some { c with addr := a, sock := some (s.udpFd sockOk) } := StdMap.put_self
  have hfifo : ConnT.fifo { c with addr := a, sock := some (s.udpFd sockOk), tid := some tid } =
      c.fifo := rfl
  exact .ite (h2.crash _) (.ite ((h2.closeFd _).ret _) ((h2.setConn hput hfifo).ret 0))

theorem aside_close : Aside s (s.srtpClose junk fd) := by
  have h0 := Aside.refl h
  refine .ite (h0.ret _) ((h0.closeFd fd).deref fun id c u _ hc hu => ?_)
  have h1 : Aside s (if c.readTid (junk id) ≠ 0 then
      { ((u.closeFd (c.readSock (junk id))).observe (.cancel (c.readTid (junk id)))).observe
          (.join (c.readTid (junk id))) with
        servers := u.servers.filter fun v => decide (v.tid ≠ c.readTid (junk id)) }
    else u) := by
    refine .ite ?_ hu
    have h2 := ((hu.closeFd (c.readSock (junk id))).observe (.cancel (c.readTid (junk id)))
      rfl rfl).observe
      (.join (c.readTid (junk id))) rfl rfl
    exact h2.servers _
  exact (h1.erase fd id).ret 0

theorem aside_socket (hs : Sound s) (h0 : 0 ∈ s.files) (tries : ℕ) (opens : Bool) :
    Aside s (s.srtpSocket tries opens) := by
  refine ⟨h.srtpSocket hs h0 tries opens, by rw [log_srtpSocket], by rw [log_srtpSocket], ?_⟩
  cases opens with
  | false => exact le_rfl
  | true => exact Nat.le_succ _

end Calls

/-! ## Datagrams -/

section Datagrams

variable {bo : ByteOrder} {junk : ℕ → Junk} {s t : Sockets} {d : Datagram}

theorem writes_handlePkt (v : Server) (id : ℕ) (c : ConnT) :
    writes (s.handlePkt bo junk v d id c).log = writes s.log ∨
      ∃ bs, writes (s.handlePkt bo junk v d id c).log = writes s.log ++ [(c.fifo, bs)] := by
  unfold handlePkt
  dsimp only
  split_ifs
  · split
    · next w _ => exact Or.inr ⟨w.bytes, by simp [observe, setConn, writes]⟩
    · left
      simp [observe, setConn, writes]
  · left
    simp [observe, writes]

/-- The datagram `d` has been handled, with one connection, and been written to the descriptor it
was given or to none. -/
structure Received (d : Datagram) (s t : Sockets) : Prop where
  lost : Lost t
  opens : d.opens = true
  handled : ∃ id, handled t.log = handled s.log ++ [(d.src, id)]
  writes : writes t.log = writes s.log ∨
    ∃ bs, writes t.log = writes s.log ++ [((lowestFree s.files : ℤ), bs)]

/-- A datagram has a socket made for it, and is lost if that fails. -/
theorem received_recvSrtpData (h : Lost s) (hs : Sound s) (h0 : 0 ∈ s.files) (v : Server) :
    Aside s (s.recvSrtpData bo junk v d).1 ∨ Received d s (s.recvSrtpData bo junk v d).1 := by
  have hget : (s.hash2fd d.srcAddr.ip).getD 0 = 0 := by
    cases hip : s.hash2fd d.srcAddr.ip with
    | none => rfl
    | some fd => exact h.hash _ fd hip
  have hj : (s.fd2conn ((s.hash2fd d.srcAddr.ip).getD 0)).join = none := by
    rw [hget]
    exact h.zero
  rw [recvSrtpData_new bo junk v d hj]
  have hlook : Aside s (s.lookup d.srcAddr.ip) := ⟨h.lookup d.srcAddr.ip, rfl, rfl, le_rfl⟩
  have hmade := aside_socket hlook.lost (hs.lookup d.srcAddr.ip) (by exact h0) d.tries d.opens
  have haside : Aside s ((s.lookup d.srcAddr.ip).srtpSocket d.tries d.opens) :=
    ⟨hmade.lost, hmade.handled, hmade.writes, hmade.next⟩
  cases hat : ((s.lookup d.srcAddr.ip).srtpSocket d.tries d.opens).connAt
    ((s.lookup d.srcAddr.ip).socketFd d.opens) with
  | none =>
    rw [deref_of_none hat]
    left
    have htouch : Aside s (((s.lookup d.srcAddr.ip).srtpSocket d.tries d.opens).touch
        ((s.lookup d.srcAddr.ip).socketFd d.opens)) :=
      ⟨haside.lost.touch _, haside.handled, haside.writes, haside.next⟩
    exact htouch.crash _
  | some p =>
    obtain ⟨id, c⟩ := p
    rw [deref_of_connAt hat]
    right
    obtain ⟨hp, hc⟩ := connAt_eq_some.mp hat
    have hpos := haside.lost.pointer _ id hp
    have hown := haside.lost.own _ id c hp hc
    have hopens : d.opens = true := by
      by_contra hno
      rw [Bool.not_eq_true] at hno
      rw [hno] at hpos
      have hneg : (0 : ℤ) < -1 := hpos
      omega
    have hfd : (s.lookup d.srcAddr.ip).socketFd d.opens = (lowestFree s.files : ℤ) := by
      rw [hopens]
      rfl
    rw [hfd] at hown ⊢
    have hk := keeps_adopt bo junk v d (lowestFree s.files : ℤ) hc
    have hlost : Lost (adopt bo junk v d (lowestFree s.files) id c
        ((s.lookup d.srcAddr.ip).srtpSocket d.tries d.opens)) := by
      refine (haside.lost.record (fun hnone => ?_) _).keeps hk
      -- the look-up has left an entry
      have hrec : ((s.lookup d.srcAddr.ip).srtpSocket d.tries d.opens).hash2fd d.srcAddr.ip =
          some ((s.hash2fd d.srcAddr.ip).getD 0) := by
        cases d.opens <;> exact StdMap.insert_self
      rw [hrec] at hnone
      cases hnone
    refine ⟨hlost, hopens, ⟨id, ?_⟩, ?_⟩
    · unfold adopt
      rw [handled_handlePkt]
      exact congrArg (· ++ _) haside.handled
    · unfold adopt
      rcases writes_handlePkt
        (s := (((s.lookup d.srcAddr.ip).srtpSocket d.tries d.opens).setConn id { c with
          addr := d.srcAddr.bytes bo
          addrLen := some bufferSize }).record d.srcAddr.ip (lowestFree s.files)) v id { c with
          addr := d.srcAddr.bytes bo, addrLen := some bufferSize } with hw | ⟨bs, hw⟩
      · left
        exact hw.trans haside.writes
      · right
        refine ⟨bs, hw.trans ?_⟩
        rw [← hown]
        exact congrArg (· ++ _) haside.writes

/-- **One step**: nothing is received, or one datagram. -/
theorem aside_or_received {e : Call} (hs : Sound s) (h : Lost s) (h0 : 0 ∈ s.files)
    (ht : s.step bo junk e = some t) : Aside s t ∨ ∃ k d, e = .datagram k d ∧ Received d s t := by
  obtain ⟨-, htrans⟩ := trans_of_step hs ht
  cases htrans with
  | socket tries opens => exact Or.inl ((aside_socket h hs h0 tries opens).ret _)
  | bind fd address => exact Or.inl (aside_bind h address)
  | listen fd sockOk bindOk tid buffer => exact Or.inl (aside_listen h sockOk bindOk tid buffer)
  | connect fd address sockOk connOk established tid =>
    exact Or.inl (aside_connect h address sockOk connOk established tid)
  | accept fd addressLen => exact Or.inl ((Aside.refl h).ret _)
  | close fd => exact Or.inl (aside_close h)
  | osClose fd => exact Or.inl ((Aside.refl h).closeFd fd)
  | datagram k d v =>
    have h1 : Lost { s with servers := s.servers.set k (v.store d.bytes) } :=
      ⟨h.hash, h.pointer, h.own⟩
    have hs1 : Sound { s with servers := s.servers.set k (v.store d.bytes) } :=
      ⟨hs.heap, hs.pointer, hs.newConns⟩
    rcases received_recvSrtpData h1 hs1 h0 (v.store d.bytes) with ha | hr
    · exact Or.inl ⟨ha.lost, ha.handled, ha.writes, ha.next⟩
    · exact Or.inr ⟨k, d, rfl, hr.lost, hr.opens, hr.handled, hr.writes⟩

end Datagrams

/-! ## Whole runs -/

section Runs

variable {bo : ByteOrder} {junk : ℕ → Junk} {files : List ℕ} {es : List Call} {s : Sockets}

theorem lost_of_always (hzero : Machine.Always (step bo junk) (fun u => 0 ∈ u.files)
    (init files) es) (hes : Machine.exec (step bo junk) (init files) es = some s) : Sound s ∧
    Lost s ∧ 0 ∈ s.files := by
  have hinv : Sound s ∧ Lost s := by
    refine Machine.exec_invariant_of_meets (I := fun u => Sound u ∧ Lost u)
      (fun u e t hu h0 ht => ?_)
      ⟨sound_init files, lost_init files⟩ hzero.meets hes
    refine ⟨hu.1.step ht, ?_⟩
    rcases aside_or_received hu.1 hu.2 h0 ht with ha | ⟨k, d, -, hr⟩
    · exact ha.lost
    · exact hr.lost
  exact ⟨hinv.1, hinv.2, hzero es [] s (List.append_nil es).symm hes⟩

/-- **What is received is never read**: as long as descriptor 0 has been open, what a step writes to
fifos it writes to ones whose descriptors were not open before it, and `_srtp_accept` on an open
socket does not return. -/
theorem written_unread (hzero : Machine.Always (step bo junk) (fun u => 0 ∈ u.files)
    (init files) es) (hes : Machine.exec (step bo junk) (init files) es = some s) :
    (∀ e t, s.step bo junk e = some t → ∃ new, writes t.log = writes s.log ++ new ∧
        ∀ p ∈ new, ∃ n : ℕ, p.1 = n ∧ n ∉ s.files) ∧
      ∀ fd n, s.isOpenSRTPSock fd = true → s.step bo junk (.accept fd n) = none := by
  obtain ⟨hs, h, h0⟩ := lost_of_always hzero hes
  constructor
  · intro e t ht
    rcases aside_or_received hs h h0 ht with ha | ⟨k, d, -, hr⟩
    · exact ⟨[], by rw [ha.writes, List.append_nil], fun p hp => by cases hp⟩
    · rcases hr.writes with hw | ⟨bs, hw⟩
      · exact ⟨[], by rw [hw, List.append_nil], fun p hp => by cases hp⟩
      · refine ⟨_, hw, fun p hp => ⟨lowestFree s.files, by rw [List.mem_singleton.mp hp], ?_⟩⟩
        rw [lowestFree_eq]
        exact Reassembly.missing_notMem s.files
  · intro fd n ho
    unfold step
    split_ifs
    · rfl
    · dsimp only
      unfold srtpAccept
      rw [if_neg (by simp [ho]), hs.newConns]

theorem listening_zero :
    Machine.Always (step .little zeroJunk) (fun u => 0 ∈ u.files) (init [0, 1, 2]) listening := by
  refine (Machine.always_cons rfl).mpr ⟨by decide, (Machine.always_cons rfl).mpr ⟨by decide,
    (Machine.always_cons rfl).mpr ⟨by decide, Machine.always_nil.mpr (by decide)⟩⟩⟩

/-- A datagram at a listening socket, whose byte goes to descriptor 5. -/
theorem written_unread_oneByte : ∃ s t,
    Machine.exec (step .little zeroJunk) (init [0, 1, 2]) listening = some s ∧
      s.step .little zeroJunk (.datagram 0 (oneByte 4000)) = some t ∧
      writes t.log = [(5, [65])] ∧ 5 ∉ s.files ∧ s.step .little zeroJunk (.accept 3 none) =
        none := by
  obtain ⟨s, t, hs, ht, h0, h1, ho⟩ : ∃ s t,
      Machine.exec (step .little zeroJunk) (init [0, 1, 2]) listening = some s ∧
        s.step .little zeroJunk (.datagram 0 (oneByte 4000)) = some t ∧ writes s.log = [] ∧
        writes t.log = [(5, [65])] ∧ s.isOpenSRTPSock 3 = true := ⟨_, _, rfl, rfl, rfl, rfl, rfl⟩
  obtain ⟨hw, hacc⟩ := written_unread listening_zero hs
  obtain ⟨new, hnew, hfresh⟩ := hw _ t ht
  rw [h0, h1, List.nil_append] at hnew
  obtain ⟨n, hn, hfree⟩ := hfresh (5, [65]) (hnew ▸ List.mem_singleton.mpr rfl)
  obtain rfl : n = 5 := (Int.ofNat_inj.mp hn).symm
  exact ⟨s, t, hs, ht, h1, hfree, hacc 3 none ho⟩

/-- The connections are numbered in the order of the datagrams. -/
structure Numbered (s : Sockets) : Prop where
  sound : Sound s
  lost : Lost s
  pairwise : ((handled s.log).map Prod.snd).Pairwise (· < ·)
  lt : ∀ p ∈ handled s.log, p.2 < s.next

theorem Numbered.step {s t : Sockets} {e : Call} (h : Numbered s) (h0 : 0 ∈ s.files)
    (hfree : s.Unclaimed e) (ht : s.step bo junk e = some t) : Numbered t := by
  have hsound := h.sound.step ht
  rcases aside_or_received h.sound h.lost h0 ht with ha | ⟨k, d, rfl, hr⟩
  · refine ⟨hsound, ha.lost, by rw [ha.handled]; exact h.pairwise, fun p hp => ?_⟩
    rw [ha.handled] at hp
    exact (h.lt p hp).trans_le ha.next
  · -- the socket that is made is the datagram's own
    obtain ⟨-, hlog, hnext⟩ := forgetful_step ⟨h.sound, h.lost.hash, h.lost.zero⟩ hr.opens hfree ht
    refine ⟨hsound, hr.lost, ?_, fun p hp => ?_⟩
    · rw [hlog, List.map_append, List.pairwise_append]
      refine ⟨h.pairwise, List.pairwise_singleton _ _, fun a ha b hb => ?_⟩
      obtain ⟨p, hp, rfl⟩ := List.mem_map.mp ha
      rw [List.map_singleton, List.mem_singleton] at hb
      exact hb ▸ h.lt p hp
    · rw [hlog, List.mem_append, List.mem_singleton] at hp
      rw [hnext]
      rcases hp with hp | rfl
      · exact (h.lt p hp).trans (Nat.lt_succ_self _)
      · exact Nat.lt_succ_self _

/-- **Demultiplexing over whole runs**: as long as descriptor 0 has been open and no new socket has
got a descriptor that is still a key, senders and connections belong together one to one exactly if
no sender has sent twice. -/
theorem demux_iff_once (hzero : Machine.Always (step bo junk) (fun u => 0 ∈ u.files)
    (init files) es) (hfree : Machine.Meets (step bo junk) Unclaimed (init files) es)
    (hes : Machine.exec (step bo junk) (init files) es = some s) :
    Demux s.log ↔ ((handled s.log).map Prod.fst).Nodup := by
  have hnum : Numbered s := by
    refine Machine.exec_invariant_of_meets (I := Numbered)
      (fun u e t hu hok ht => hu.step hok.1 hok.2 ht) ?_
      (hzero.meets.and hfree) hes
    exact ⟨sound_init files, lost_init files, List.Pairwise.nil, fun p hp => by cases hp⟩
  have hsnd : ((handled s.log).map Prod.snd).Nodup := hnum.pairwise.imp fun h => h.ne
  have hinj := List.inj_on_of_nodup_map hsnd
  constructor
  · intro hd
    refine List.Nodup.map_on (fun p hp q hq e => ?_) (List.Nodup.of_map _ hsnd)
    exact hinj hp hq ((hd p hp q hq).mpr e)
  · intro hn p hp q hq
    constructor
    · exact fun e => congrArg Prod.fst (hinj hp hq e)
    · exact fun e => congrArg Prod.snd (List.inj_on_of_nodup_map hn hp hq e)

theorem unclaimed_of {e : Call}
    (h : ((s.socketCall e).bind fun p => p.1.fd2conn (lowestFree p.1.files)) = none) :
    s.Unclaimed e := by
  intro u tries hu
  rw [hu] at h
  exact h

/-- Two senders. -/
theorem demux_iff_once_twoSenders : ∃ s,
    Machine.exec (step .little zeroJunk) (init [0, 1, 2])
        (listening ++ [.datagram 0 (oneByte 4000), .datagram 0 (oneByte 4001)]) = some s ∧
        Demux s.log := by
  obtain ⟨s, hs, hlog⟩ : ∃ s, Machine.exec (step .little zeroJunk) (init [0, 1, 2])
      (listening ++ [.datagram 0 (oneByte 4000), .datagram 0 (oneByte 4001)]) = some s ∧
        (handled s.log).map Prod.fst = [(oneByte 4000).src, (oneByte 4001).src] := ⟨_, rfl, rfl⟩
  refine ⟨s, hs, (demux_iff_once ?_ ?_ hs).mpr ?_⟩
  · exact (Machine.always_cons rfl).mpr ⟨by decide, (Machine.always_cons rfl).mpr ⟨by decide,
      (Machine.always_cons rfl).mpr ⟨by decide, (Machine.always_cons rfl).mpr ⟨by decide,
        (Machine.always_cons rfl).mpr ⟨by decide, Machine.always_nil.mpr (by decide)⟩⟩⟩⟩⟩
  · exact .cons rfl (unclaimed_of rfl) (.cons rfl (unclaimed_of rfl) (.cons rfl (unclaimed_of rfl)
      (.cons rfl (unclaimed_of rfl) (.cons rfl (unclaimed_of rfl) trivial))))
  · rw [hlog]
    decide

end Runs

end Sockets

end FortyTwoHundred.Srtp
