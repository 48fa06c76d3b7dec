import Mathlib.Data.List.Nodup
import FortyTwoHundred.Srtp.Clean

/-!
# Demux — datagrams and connections at a listening socket

A listening socket is meant to handle the datagrams of one sender (address and port) with one
connection, and to announce every new sender once in `new_conns`.

It never announces one: `recv_srtp_data` does not return, so the code of `server_proxy` that fills
`new_conns` is never reached.  Both halves of the intention hold exactly if no datagram comes at
all (`demux_iff`).  As to the connections: the entry `hash2fd[s_addr] = 0` that the look-up makes
is not replaced by the `insert` after it, so unless descriptor 0 is an SRTP socket the next look-up
finds nothing again, and every datagram gets a connection of its own (`handled_eq`).
-/

namespace FortyTwoHundred.Srtp

/-- The senders of the datagrams handled, with the connections they were handled with. -/
def handled (log : List Obs) : List (Source × ℕ) :=
  log.filterMap fun
    | .handled src id => some (src, id)
    | _ => none

/-- Datagrams are handled with the same connection exactly if they come from the same sender. -/
def Demux (log : List Obs) : Prop := ∀ p ∈ handled log, ∀ q ∈ handled log, p.2 = q.2 ↔ p.1 = q.1

namespace Sockets

/-- A datagram of a sender not in `seen` appends the descriptor of its connection to `new_conns`,
any other nothing. -/
def AnnouncedBy (seen : List Source) (d : Datagram) (s t : Sockets) : Prop :=
  if d.src ∈ seen then t.newConns = s.newConns
  else ∃ id c, (handled t.log).getLast? = some (d.src, id) ∧ t.heap id = some c ∧
    t.newConns = s.newConns ++ [c.fifo]

/-- Every sender is announced once, when it is first seen. -/
def Announced (bo : ByteOrder) (junk : ℕ → Junk) (k : ℕ) (s : Sockets) (ds : List Datagram) :
    Prop :=
  ∀ fs d gs u t, ds = fs ++ d :: gs → Machine.exec (step bo junk) s (fs.map (Call.datagram k)) =
    some u →
    u.step bo junk (.datagram k d) = some t → AnnouncedBy (fs.map Datagram.src) d u t

section Step

variable {bo : ByteOrder} {junk : ℕ → Junk} {k : ℕ} {s t : Sockets} {d : Datagram}

theorem newConns_recvSrtpData (v : Server) :
    (s.recvSrtpData bo junk v d).1.newConns = s.newConns := by
  have hsock : ∀ fd, (((s.lookup d.srcAddr.ip).srtpSocket d.tries d.opens).record d.srcAddr.ip
      fd).newConns = s.newConns := by
    intro fd
    unfold srtpSocket
    cases d.opens <;> rfl
  rcases recvSrtpData_cases bo junk v d s with ⟨id, c, -, hk⟩ | ⟨id, -, -, he⟩
    | ⟨-, ⟨fd, hk⟩ | ⟨fd, he⟩⟩
  · exact hk.newConns
  · rw [he]
    rfl
  · exact hk.newConns.trans (hsock fd)
  · rw [he]
    exact hsock fd

/-- No datagram is announced. -/
theorem newConns_datagram (h : s.step bo junk (.datagram k d) = some t) :
    t.newConns = s.newConns := by
  obtain ⟨v, rfl⟩ := datagram_of_step h
  rw [newConns_recvSrtpData]

end Step

/-- **Demultiplexing**: for the datagrams at a listening socket that has handled none, whatever the
tables are, senders and connections belong together one to one and every sender is announced once,
exactly if there are no datagrams. -/
theorem demux_iff (bo : ByteOrder) (junk : ℕ → Junk) (k : ℕ) (s t : Sockets) (ds : List Datagram)
    (hlog : handled s.log = [])
    (h : Machine.exec (step bo junk) s (ds.map (Call.datagram k)) = some t) :
    (Demux t.log ∧ Announced bo junk k s ds) ↔ ds = [] := by
  constructor
  · rintro ⟨-, hann⟩
    cases ds with
    | nil => rfl
    | cons d ds =>
      -- the first sender is new, and is not announced
      exfalso
      obtain ⟨u, hu, -⟩ := Machine.exec_cons_some.mp h
      have hfirst := hann [] d ds s u rfl rfl hu
      unfold AnnouncedBy at hfirst
      rw [if_neg (by simp)] at hfirst
      obtain ⟨id, c, -, -, hq⟩ := hfirst
      rw [newConns_datagram hu] at hq
      simp at hq
  · rintro rfl
    simp only [List.map_nil, Machine.exec_nil, Option.some.injEq] at h
    subst h
    refine ⟨fun p hp => ?_, fun fs d gs u t e => ?_⟩
    · rw [hlog] at hp
      cases hp
    · simp at e

/-- One datagram at a listening socket. -/
theorem demux_iff_one : ∃ s t,
    Machine.exec (step .little zeroJunk) (init [0, 1, 2]) listening = some s ∧
      Machine.exec (step .little zeroJunk) s ([oneByte 4000].map (Call.datagram 0)) = some t ∧
      ¬ (Demux t.log ∧ Announced .little zeroJunk 0 s [oneByte 4000]) := by
  obtain ⟨s, t, hs, hlog, ht⟩ : ∃ s t, Machine.exec (step .little zeroJunk)
      (init [0, 1, 2]) listening = some s ∧
      handled s.log = [] ∧
      Machine.exec (step .little zeroJunk) s ([oneByte 4000].map (Call.datagram 0)) = some t :=
        ⟨_, _, rfl, rfl, rfl⟩
  exact ⟨s, t, hs, ht, fun h =>
    absurd ((demux_iff .little zeroJunk 0 s t [oneByte 4000] hlog ht).mp h) (by simp)⟩

/-- Two datagrams of one sender are handled with different connections, and neither is announced. -/
theorem same_sender_two_connections : ∃ s t,
    Machine.exec (step .little zeroJunk) (init [0, 1, 2]) listening = some s ∧ s.newConns = [] ∧
      Machine.exec (step .little zeroJunk) s ([oneByte 4000, oneByte 4000].map (Call.datagram 0)) =
        some t ∧
      handled t.log = [((oneByte 4000).src, 1), ((oneByte 4000).src, 2)] ∧ t.newConns = [] ∧
      ¬ Demux t.log ∧ ¬ Announced .little zeroJunk 0 s [oneByte 4000, oneByte 4000] := by
  refine ⟨_, _, rfl, rfl, rfl, rfl, rfl, fun hd => ?_, fun ha => ?_⟩
  · have := (hd ((oneByte 4000).src, 1) (by decide) ((oneByte 4000).src, 2) (by decide)).mpr rfl
    cases this
  · obtain ⟨id, c, -, -, hq⟩ := ha [] (oneByte 4000) [oneByte 4000] _ _ rfl rfl rfl
    cases hq

/-! ## The connections of the datagrams -/

/-- Every look-up of a sender ends at descriptor 0 and finds nothing there. -/
structure Forgetful (s : Sockets) : Prop where
  sound : Sound s
  hash : ∀ ip fd, s.hash2fd ip = some fd → fd = 0
  zero : (s.fd2conn 0).join = none

section Step

variable {bo : ByteOrder} {junk : ℕ → Junk} {k : ℕ} {s t : Sockets} {d : Datagram}

theorem Forgetful.getD (h : Forgetful s) (ip : UInt32) : (s.hash2fd ip).getD 0 = 0 := by
  cases hip : s.hash2fd ip with
  | none => rfl
  | some fd => exact h.hash ip fd hip

theorem handled_handlePkt (v : Server) (id : ℕ) (c : ConnT) :
    handled (s.handlePkt bo junk v d id c).log = handled s.log ++ [(d.src, id)] := by
  unfold handlePkt
  dsimp only
  split_ifs
  · split <;> simp [observe, setConn, handled]
  · simp [observe, handled]

theorem log_srtpSocket (tries : ℕ) (opens : Bool) : (s.srtpSocket tries opens).log = s.log := by
  unfold srtpSocket
  cases opens <;> rfl

/-- **A datagram gets a connection of its own**, and is forgotten. -/
theorem forgetful_recvSrtpData (h : Forgetful s) (v : Server) (hopen : d.opens = true)
    (hfree : (s.lookup d.srcAddr.ip).fd2conn (lowestFree s.files) = none) :
    Forgetful (s.recvSrtpData bo junk v d).1 ∧
      handled (s.recvSrtpData bo junk v d).1.log = handled s.log ++ [(d.src, s.next)] ∧
      (s.recvSrtpData bo junk v d).1.next = s.next + 1 := by
  have hget := h.getD d.srcAddr.ip
  have hj : (s.fd2conn ((s.hash2fd d.srcAddr.ip).getD 0)).join = none := by
    rw [hget]
    exact h.zero
  have hsound := h.sound.recvSrtpData bo junk v d
  have hzero := fd2conn_recvSrtpData bo junk v d hj
  rw [hget] at hzero
  rw [recvSrtpData_new bo junk v d hj] at hsound hzero ⊢
  have hat := (connAt_srtpSocket_iff (h.sound.lookup d.srcAddr.ip) d.tries).mpr hfree
  rw [hopen] at hsound hzero ⊢
  rw [deref_of_connAt hat] at hsound hzero ⊢
  have hk := keeps_adopt bo junk v d ((s.lookup d.srcAddr.ip).socketFd true)
    (connAt_eq_some.mp hat).2
  refine ⟨⟨hsound, fun ip fd hip => ?_, by rw [hzero]; rfl⟩, ?_, hk.next⟩
  · -- the entry of the sender is the one the look-up has made
    rw [hk.hash2fd] at hip
    rcases StdMap.insert_eq_some hip with hip | ⟨-, hnone, -⟩
    · rcases StdMap.insert_eq_some hip with hip | ⟨-, -, rfl⟩
      · exact h.hash ip fd hip
      · rfl
    · have : StdMap.insert s.hash2fd d.srcAddr.ip 0 d.srcAddr.ip = none := hnone
      rw [StdMap.insert_self] at this
      cases this
  · unfold adopt
    rw [handled_handlePkt]
    show handled ((s.lookup d.srcAddr.ip).srtpSocket d.tries true).log ++ _ = _
    rw [log_srtpSocket]
    rfl

end Step

theorem forgetful_step {bo : ByteOrder} {junk : ℕ → Junk} {k : ℕ} {s t : Sockets} {d : Datagram}
    (h : Forgetful s) (hopen : d.opens = true) (hfree : s.Unclaimed (.datagram k d))
    (ht : s.step bo junk (.datagram k d) = some t) :
    Forgetful t ∧ handled t.log = handled s.log ++ [(d.src, s.next)] ∧ t.next = s.next + 1 := by
  have hj : (s.fd2conn ((s.hash2fd d.srcAddr.ip).getD 0)).join = none := by
    rw [h.getD]
    exact h.zero
  have hcall : s.socketCall (.datagram k d) = some (s.lookup d.srcAddr.ip, d.tries, true) := by
    simp only [socketCall, if_pos hj, hopen]
  have hlow := hfree _ _ hcall
  obtain ⟨v, rfl⟩ := datagram_of_step ht
  have h1 : Forgetful { s with servers := s.servers.set k (v.store d.bytes) } :=
    ⟨⟨h.sound.heap, h.sound.pointer, h.sound.newConns⟩, h.hash, h.zero⟩
  exact forgetful_recvSrtpData h1 (v.store d.bytes) hopen hlow

/-- **Every datagram has a connection of its own**, for any number of datagrams of any senders, as
long as the sockets can be made. -/
theorem handled_eq {bo : ByteOrder} {junk : ℕ → Junk} {k : ℕ} {s t : Sockets} {ds : List Datagram}
    (h : Forgetful s) (hopen : ∀ d ∈ ds, d.opens = true)
    (hfree : Machine.Meets (step bo junk) Unclaimed s (ds.map (Call.datagram k)))
    (ht : Machine.exec (step bo junk) s (ds.map (Call.datagram k)) = some t) :
    handled t.log = handled s.log ++ (ds.map Datagram.src).zip (List.range' s.next ds.length) := by
  induction ds generalizing s with
  | nil =>
    simp only [List.map_nil, Machine.exec_nil, Option.some.injEq] at ht
    simp [ht]
  | cons d ds ih =>
    obtain ⟨u, hu, ht⟩ := Machine.exec_cons_some.mp ht
    obtain ⟨h1, h2, h3⟩ := forgetful_step h (hopen d (by simp)) hfree.1 hu
    rw [ih h1 (fun e he => hopen e (by simp [he])) (hfree.2 u hu) ht, h2, h3, List.append_assoc]
    rfl

/-- So senders and connections belong together exactly if no sender sends twice. -/
theorem demux_iff_nodup {bo : ByteOrder} {junk : ℕ → Junk} {k : ℕ} {s t : Sockets}
    {ds : List Datagram} (h : Forgetful s) (hlog : handled s.log = [])
    (hopen : ∀ d ∈ ds, d.opens = true)
    (hfree : Machine.Meets (step bo junk) Unclaimed s (ds.map (Call.datagram k)))
    (ht : Machine.exec (step bo junk) s (ds.map (Call.datagram k)) = some t) :
    Demux t.log ↔ (ds.map Datagram.src).Nodup := by
  have hhandled := handled_eq h hopen hfree ht
  rw [hlog, List.nil_append] at hhandled
  unfold Demux
  rw [hhandled, List.nodup_iff_injective_getElem]
  constructor
  · intro hd i j hij
    have hmem : ∀ i : Fin (ds.map Datagram.src).length,
        ((ds.map Datagram.src)[i], s.next + i) ∈ (ds.map Datagram.src).zip
        (List.range' s.next ds.length) := by
      intro i
      have hi : (i : ℕ) < ds.length := by simpa using i.isLt
      refine List.mem_iff_getElem.mpr ⟨i, by simpa using hi, ?_⟩
      simp
    have := (hd _ (hmem i) _ (hmem j)).mpr hij
    exact Fin.ext (by simpa using this)
  · intro hinj p hp q hq
    obtain ⟨i, hi, rfl⟩ := List.mem_iff_getElem.mp hp
    obtain ⟨j, hj, rfl⟩ := List.mem_iff_getElem.mp hq
    simp only [List.length_zip, List.length_map, List.length_range', min_self] at hi hj
    simp only [List.getElem_zip, List.getElem_range']
    constructor
    · intro e
      have hij : i = j := by omega
      subst hij
      rfl
    · intro e
      have hij : (⟨i, by simpa using hi⟩ : Fin (ds.map Datagram.src).length) =
          ⟨j, by simpa using hj⟩ := hinj e
      rw [Fin.mk.injEq] at hij
      rw [hij]

end Sockets

end FortyTwoHundred.Srtp
