import FortyTwoHundred.Srtp.Tables

/-!
# Unset — what the calls read of a fresh `Conn_t`

`_srtp_socket` sets the descriptor and the fifo's name of a new `Conn_t`, and nothing else.
`_srtp_listen` reads `addr_len` and `addr`, `_srtp_close` reads `tid` and then `sock`, a data
packet is compared with `sequence`.  Whether these have been set depends on the calls before:
`_srtp_bind` sets the address, a successful `_srtp_listen` or `_srtp_connect` the thread, and
nothing ever sets `sequence` but a packet that has matched it.

`ReadsSet` says of a step that it reads no field that has not been set.  Runs of such steps do not
depend on the contents of fresh blocks (`exec_junk_irrelevant`); that other runs do is seen at the
smallest of them (`unbound_listen_depends_on_junk`).
-/

namespace FortyTwoHundred.Srtp

/-- The fields that a copy of the address reads have been set. -/
def ConnT.AddrSet (c : ConnT) : Prop := ∃ n, c.addrLen = some n ∧ min n sockaddrSize ≤ c.addr.length

/-- A set address does not show what the block held. -/
theorem ConnT.AddrSet.read {c : ConnT} (h : c.AddrSet) (j j' : Junk) :
    c.readAddrLen j = c.readAddrLen j' ∧
      (c.readAddr j).take (c.readAddrLen j) = (c.readAddr j').take (c.readAddrLen j') := by
  obtain ⟨n, hn, hle⟩ := h
  have hlen : ∀ i : Junk, c.readAddrLen i = n := by
    intro i
    unfold ConnT.readAddrLen
    rw [hn]
    rfl
  have haddr : ∀ i : Junk, (c.readAddr i).take n = c.addr.take n := by
    intro i
    unfold ConnT.readAddr overlay
    by_cases hlt : n ≤ c.addr.length
    · rw [List.take_append_of_le_length hlt]
    · -- all of the address has been set
      have hsize : sockaddrSize ≤ c.addr.length := by
        unfold sockaddrSize at hle ⊢
        omega
      have hnil : (i.addr.take sockaddrSize).drop c.addr.length = [] := by
        rw [List.drop_eq_nil_iff, List.length_take]
        omega
      rw [hnil, List.append_nil]
  rw [hlen j, hlen j', haddr j, haddr j']
  exact ⟨rfl, rfl⟩

namespace Sockets

/-- The connection a datagram is handled with, as it is before that. -/
def handler (s : Sockets) (d : Datagram) : Option (ℕ × ConnT) :=
  match (s.fd2conn ((s.hash2fd d.srcAddr.ip).getD 0)).join with
  | some _ => s.connAt ((s.hash2fd d.srcAddr.ip).getD 0)
  | none => ((s.lookup d.srcAddr.ip).srtpSocket d.tries d.opens).connAt
      ((s.lookup d.srcAddr.ip).socketFd d.opens)

theorem handler_servers (s : Sockets) (vs : List Server) (d : Datagram) :
    handler { s with servers := vs } d = s.handler d := by
  unfold handler srtpSocket
  cases d.opens <;> rfl

/-- The step reads no field of a connection that has not been set.  Nothing sets a `sequence` before
the first data packet for its connection reads it, so in a run from an empty table the clause on
datagrams says that no data packet is handled. -/
def ReadsSet (bo : ByteOrder) (s : Sockets) : Call → Prop
  | .listen fd _ _ _ _ => s.isOpenSRTPSock fd = true → ∀ id c, s.connAt fd = some (id, c) →
      c.AddrSet
  | .accept fd (some _) =>
    s.isOpenSRTPSock fd = true → ∀ fifo ∈ s.newConns.head?, ∀ id c, s.connAt fifo = some (id, c) →
    c.AddrSet
  | .close fd =>
    s.isOpenSRTPSock fd = true → ∀ id c, s.connAt fd = some (id, c) →
      ∃ tid, c.tid = some tid ∧ (tid ≠ 0 → c.sock ≠ none)
  | .datagram k d =>
    ∀ v ∈ s.servers[k]?, 0 < (header bo (v.store d.bytes).buffer).len →
      ∀ id c, s.handler d = some (id, c) → c.sequence ≠ none
  | _ => True

section Step

variable {bo : ByteOrder} {j j' : ℕ → Junk} {s : Sockets}

theorem srtpListen_congr {fd : ℤ} {sockOk bindOk : Bool} {tid : ℕ} {buffer : Bytes}
    (h : s.isOpenSRTPSock fd = true → ∀ id c, s.connAt fd = some (id, c) → c.AddrSet) :
    s.srtpListen j fd sockOk bindOk tid buffer = s.srtpListen j' fd sockOk bindOk tid buffer := by
  unfold srtpListen
  by_cases ho : s.isOpenSRTPSock fd = true
  · rw [if_neg (by simp [ho]), if_neg (by simp [ho])]
    cases hc : s.connAt fd with
    | none => rw [deref_of_none hc, deref_of_none hc]
    | some p =>
      obtain ⟨id, c⟩ := p
      rw [deref_of_connAt hc, deref_of_connAt hc]
      -- the address of the connection is read after its socket has been stored
      have hset : ConnT.AddrSet { c with sock := some (s.udpFd sockOk) } := h ho id c hc
      obtain ⟨h1, h2⟩ := hset.read (j id) (j' id)
      dsimp only
      rw [h2, h1]
  · rw [if_pos (by simpa using ho), if_pos (by simpa using ho)]

theorem srtpClose_congr {fd : ℤ}
    (h : s.isOpenSRTPSock fd = true → ∀ id c, s.connAt fd = some (id, c) →
      ∃ tid, c.tid = some tid ∧ (tid ≠ 0 → c.sock ≠ none)) :
    s.srtpClose j fd = s.srtpClose j' fd := by
  unfold srtpClose
  by_cases ho : s.isOpenSRTPSock fd = true
  · rw [if_neg (by simp [ho]), if_neg (by simp [ho])]
    have hat : (s.closeFd fd).connAt fd = s.connAt fd := rfl
    cases hc : s.connAt fd with
    | none => rw [deref_of_none (hat.trans hc), deref_of_none (hat.trans hc)]
    | some p =>
      obtain ⟨id, c⟩ := p
      obtain ⟨tid, htid, hsock⟩ := h ho id c hc
      have hread : ∀ i : Junk, c.readTid i = tid := by
        intro i
        unfold ConnT.readTid
        rw [htid]
        rfl
      rw [deref_of_connAt (hat.trans hc), deref_of_connAt (hat.trans hc)]
      dsimp only
      rw [hread, hread]
      by_cases h0 : tid ≠ 0
      · obtain ⟨sock, hs⟩ := Option.ne_none_iff_exists'.mp (hsock h0)
        have hreadSock : ∀ i : Junk, c.readSock i = sock := by
          intro i
          unfold ConnT.readSock
          rw [hs]
          rfl
        rw [if_pos h0, if_pos h0, hreadSock, hreadSock]
      · rw [if_neg h0, if_neg h0]
  · rw [if_pos (by simpa using ho), if_pos (by simpa using ho)]

theorem handlePkt_congr {v : Server} {d : Datagram} {id : ℕ} {c : ConnT}
    (h : 0 < (header bo v.buffer).len → c.sequence ≠ none) :
    s.handlePkt bo j v d id c = s.handlePkt bo j' v d id c := by
  unfold handlePkt
  dsimp only
  by_cases hlen : 0 < (header bo v.buffer).len
  · obtain ⟨q, hq⟩ := Option.ne_none_iff_exists'.mp (h hlen)
    have hread : ∀ i : Junk, c.readSequence i = q := by
      intro i
      unfold ConnT.readSequence
      rw [hq]
      rfl
    rw [hread, hread]
  · rw [if_neg hlen, if_neg hlen]

theorem recvSrtpData_congr {v : Server} {d : Datagram}
    (h : 0 < (header bo v.buffer).len → ∀ id c, s.handler d = some (id, c) → c.sequence ≠ none) :
    (s.recvSrtpData bo j v d).1 = (s.recvSrtpData bo j' v d).1 := by
  unfold handler at h
  cases hj : (s.fd2conn ((s.hash2fd d.srcAddr.ip).getD 0)).join with
  | some id =>
    rw [hj] at h
    have hfd := Option.join_eq_some_iff.mp hj
    cases hc : s.heap id with
    | none => rw [recvSrtpData_dangling bo j v d hfd hc, recvSrtpData_dangling bo j' v d hfd hc]
    | some c =>
      have hat := connAt_eq_some.mpr ⟨hfd, hc⟩
      rw [recvSrtpData_known bo j v d hat, recvSrtpData_known bo j' v d hat]
      exact handlePkt_congr fun hlen => h hlen id c hat
  | none =>
    rw [hj] at h
    rw [recvSrtpData_new bo j v d hj, recvSrtpData_new bo j' v d hj]
    cases hc : ((s.lookup d.srcAddr.ip).srtpSocket d.tries d.opens).connAt
      ((s.lookup d.srcAddr.ip).socketFd d.opens) with
    | none => rw [deref_of_none hc, deref_of_none hc]
    | some p =>
      rw [deref_of_connAt hc, deref_of_connAt hc]
      unfold adopt
      exact handlePkt_congr fun hlen => h hlen p.1 p.2 hc

theorem srtpAccept_congr {fd : ℤ} {addressLen : Option ℕ}
    (h : s.ReadsSet bo (.accept fd addressLen)) :
    s.srtpAccept j fd addressLen = s.srtpAccept j' fd addressLen := by
  unfold srtpAccept
  by_cases ho : s.isOpenSRTPSock fd = true
  · rw [if_neg (by simp [ho]), if_neg (by simp [ho])]
    cases hq : s.newConns with
    | nil => rfl
    | cons fifo rest =>
      cases addressLen with
      | none => rfl
      | some n =>
        have hset := h ho fifo (by rw [hq]; rfl)
        have hat : ({ s with newConns := rest } : Sockets).connAt fifo = s.connAt fifo := rfl
        dsimp only
        cases hc : s.connAt fifo with
        | none => rw [deref_of_none (hat.trans hc), deref_of_none (hat.trans hc)]
        | some p =>
          obtain ⟨id, c⟩ := p
          rw [deref_of_connAt (hat.trans hc), deref_of_connAt (hat.trans hc)]
          obtain ⟨h1, h2⟩ := (hset id c hc).read (j id) (j' id)
          rw [h2, h1]
  · rw [if_pos (by simpa using ho), if_pos (by simpa using ho)]

/-- **One step** that reads no unset field. -/
theorem step_congr {e : Call} (h : s.ReadsSet bo e) : s.step bo j e = s.step bo j' e := by
  unfold step
  split_ifs
  · rfl
  · cases e with
    | listen fd sockOk bindOk tid buffer => exact congrArg some (srtpListen_congr h)
    | accept fd addressLen => exact srtpAccept_congr h
    | close fd => exact congrArg some (srtpClose_congr h)
    | datagram k d =>
      dsimp only
      cases hv : (s.servers[k]?).filter s.receives with
      | none => rfl
      | some v =>
        rw [Option.map_some, Option.map_some, serverProxy_eq, serverProxy_eq]
        refine congrArg some (recvSrtpData_congr ?_)
        rw [handler_servers]
        exact h v (Option.filter_eq_some_iff.mp hv).1
    | _ => rfl

end Step

/-- **Independence of unset fields**: a run in which no step reads a field that has not been set
goes the same way for any two contents of the fresh blocks, with the same log: the same values of
the calls, fifo writes, `bind` calls and cancelled and joined threads. -/
theorem exec_junk_irrelevant (bo : ByteOrder) (j j' : ℕ → Junk) (files : List ℕ) (es : List Call)
    (h : Machine.Meets (step bo j) (ReadsSet bo) (init files) es) :
    Machine.exec (step bo j) (init files) es = Machine.exec (step bo j') (init files) es :=
  Machine.exec_congr (fun _ _ => step_congr) h

/-- Fresh blocks with a thread id and an address length of 16. -/
def fullJunk (_ : ℕ) : Junk := ⟨5, 9, List.replicate 16 2, 16, 4⟩

/-- Binding, listening and closing. -/
theorem exec_junk_irrelevant_listen :
    Machine.exec (step .little zeroJunk) (init [0, 1, 2]) (listening ++ [.close 3]) =
      Machine.exec (step .little fullJunk) (init [0, 1, 2]) (listening ++ [.close 3]) := by
  refine exec_junk_irrelevant .little zeroJunk fullJunk [0, 1, 2] _ ?_
  refine .cons rfl trivial (.cons rfl trivial (.cons rfl ?_ (.cons rfl ?_ trivial)))
  · intro _ id c hc
    obtain ⟨rfl, rfl⟩ := Prod.mk.inj (Option.some.inj hc)
    exact ⟨16, rfl, by decide⟩
  · intro _ id c hc
    obtain ⟨rfl, rfl⟩ := Prod.mk.inj (Option.some.inj hc)
    exact ⟨7, rfl, by simp⟩

/-- A socket that was never bound: `_srtp_listen` fails or succeeds with what the block held, and
`_srtp_close` of a socket without a thread cancels one or not. -/
theorem unbound_listen_depends_on_junk : ∃ s t u v,
    Machine.exec (step .little zeroJunk) (init [0, 1, 2])
    [.socket 0 true, .listen 3 true true 7 []] = some s ∧
    Machine.exec (step .little fullJunk) (init [0, 1, 2])
    [.socket 0 true, .listen 3 true true 7 []] = some t ∧
      s.log = [.ret 3, .ret (-1)] ∧ t.log = [.ret 3, .bind 4 (List.replicate 16 2) 16, .ret 0] ∧
      s.log ≠ t.log ∧
    Machine.exec (step .little zeroJunk) (init [0, 1, 2]) [.socket 0 true, .close 3] = some u ∧
    Machine.exec (step .little fullJunk) (init [0, 1, 2]) [.socket 0 true, .close 3] = some v ∧
      u.log = [.ret 3, .ret 0] ∧ v.log = [.ret 3, .cancel 5, .join 5, .ret 0] ∧ u.log ≠ v.log :=
  ⟨_, _, _, _, rfl, rfl, rfl, rfl, by decide, rfl, rfl, rfl, rfl, by decide⟩

end Sockets

end FortyTwoHundred.Srtp
