import FortyTwoHundred.Lib.Progress
import FortyTwoHundred.Ftp.Lossy

/-!
# Recovery — what is still possible after any losses

Both parties resend on their own: the client its whole window in every pass and its `FIN`, the child
an acknowledgement for every `DATA` packet.  So from every state of a transfer in which nobody has
given up, a network that stops losing datagrams lets the transfer end well, without the clock
moving (`recovers`).  A round is a pass of the client's data loop, the child's receives and the
client's receives; it advances the window by `windowSize` packets.
-/

namespace FortyTwoHundred.Ftp

open Machine

/-- An event of a network that loses nothing, at this clock reading. -/
def LossyEv.At (now : ℤ) : LossyEv → Prop
  | .clientSend n | .clientRecv _ _ n => n = now
  | .child i => i.clock = now
  | .loseToServer _ | .loseToClient _ => False

def LossyEv.isSend : LossyEv → Bool
  | .clientSend _ => true
  | _ => false

namespace Lossy

/-- With no more losses, at the clock reading `now` and with at most `n` sends of the client. -/
abbrev Can (wanted origin : Addr) (now : ℤ) : ℕ → Lossy → (Lossy → Prop) → Prop :=
  CanReach (step wanted origin) (LossyEv.At now) LossyEv.isSend

/-- With no more losses, and clock readings of any kind. -/
abbrev CanLater (wanted origin : Addr) : ℕ → Lossy → (Lossy → Prop) → Prop :=
  CanReach (step wanted origin) (fun e => ∃ now, e.At now) LossyEv.isSend

/-- Nobody has given up, and no timeout has passed at `now`. -/
structure Alive (now : ℤ) (s : Lossy) : Prop where
  client : ∀ e, s.client.pc ≠ .done e
  data : s.client.pc = .pass ∨ s.client.pc = .drain → now - s.client.lastACK ≤ ackTimeout
  fin : s.client.pc = .finTop ∨ s.client.pc = .finRecv → now - s.client.lastACK < ackTimeout
  child : ∀ e, s.child.pc = .done e → e = .returned .ok
  poll : ∀ t, s.child.pc = .poll t → now - t < 6

section Steps

variable {U : Upload} {xs ys : List (Option ℕ)} {s t : Lossy} {wanted origin : Addr} {now : ℤ}

/-- The same state with the datagrams on their way read another way. -/
theorem Agree.retag {xs' ys' : List (Option ℕ)} (h : Agree U xs' ys' s)
    (hx : s.toServer = xs.map (item U.content)) (hy : s.toClient = ys.map answer)
    (hi : GoBackN.Inv windowSize s.client.removed.length s.child.accepted.length s.client.created
      (xs.filterMap id) (ys.filterMap id))
    (hfin : none ∈ xs → s.client.left) (hack : none ∈ ys → s.client.left) : Agree U xs ys s :=
  ⟨h.window, h.started, h.stream, h.filesize, h.serving, hx, hy, hi, hfin, hack⟩

/-! ## The child's receives -/

/-- The packet of chunk `i` at the child: the expected one is accepted, any other one only
answered. -/
theorem Agree.atomic_item {i : ℕ} (h : Agree U (some i :: xs) ys s) {t : ℤ}
    (hpc : s.child.pc = .poll t) (ht : now - t < 6) (src : Addr) : ∃ c effs,
      s.child.atomic origin (.poll now [] (fun _ => 0) (.got src (item U.content (some i)))) =
        some (c, effs) ∧
      c.pc = .poll now ∧ c.accepted.length = GoBackN.receive s.child.accepted.length [i] ∧
      effs.filterMap Effect.sent = [answer (some c.accepted.length)] := by
  have hpk := isPacket_item U.content (some i)
  have hexp := h.stream.expected
  by_cases hi : i = s.child.accepted.length
  · have hseq : getSeqNum (item U.content (some i)) = s.child.expectedSequence := by
      rw [item, getSeqNum_dataPacket, hi, hexp]
    have hfit : ¬ s.child.filesize < s.child.read + (getLen (item U.content (some i))).toNat := by
      have hmin := min_add_getLen U.content i
      rw [h.filesize, h.stream.read, item, ← hi]
      omega
    have ha : s.child.atomic origin (.poll now [] (fun _ => 0)
        (.got src (item U.content (some i)))) = _ :=
      Child.atomic_data hpc ht hpk (command_dataPacket _ _) hseq
    dsimp only at ha
    rw [if_neg hfit] at ha
    refine ⟨_, _, ha, rfl, ?_, ?_⟩
    · simp [Child.accept, GoBackN.receive, hi]
    · simp [Child.accept, Effect.sent, answer, hexp, SeqNum.ofNat_succ]
  · have hseq : getSeqNum (item U.content (some i)) ≠ s.child.expectedSequence := by
      rw [item, getSeqNum_dataPacket, hexp]
      intro heq
      exact hi (h.indices.item_eq (by decide) (by simp) heq)
    have hhandle : Child.handle now (fun _ => 0)
        { s.child with buffer := overlay (item U.content (some i)) [] } =
        ({ s.child with buffer := overlay (item U.content (some i)) [], pc := .poll now },
          [.send (ackPacket s.child.expectedSequence)]) := by
      rw [Child.handle]
      dsimp only
      rw [if_pos (by rw [hpk.command_overlay]; rfl),
        if_pos (by rw [hpk.getSeqNum_overlay]; exact hseq)]
    have ha : s.child.atomic origin (.poll now [] (fun _ => 0)
        (.got src (item U.content (some i)))) = _ :=
      Child.atomic_packet hpc ht hpk (by rw [hhandle]; exact ⟨fun bs => by simp, fun st => by simp⟩)
    rw [hhandle] at ha
    refine ⟨_, _, ha, rfl, ?_, ?_⟩
    · simp [GoBackN.receive, hi]
    · simp [Effect.sent, answer, hexp]

/-- What a receive of the child does to the whole state. -/
theorem Agree.poll_item {i : ℕ} (h : Agree U (some i :: xs) ys s) {t : ℤ}
    (hpc : s.child.pc = .poll t) (ht : now - t < 6) : ∃ u,
      s.step wanted origin
        (.child (.poll now [] (fun _ => 0) (.got ⟨[]⟩ (item U.content (some i))))) = some u ∧
      u.client = s.client ∧ u.child.pc = .poll now ∧
      u.child.accepted.length = GoBackN.receive s.child.accepted.length [i] ∧
      Agree U xs (ys ++ [some u.child.accepted.length]) u := by
  obtain ⟨c, effs, ha, hcpc, hlen, hsent⟩ := h.atomic_item hpc ht ⟨[]⟩
  have hserved : s.served (.poll now [] (fun _ => 0) (.got ⟨[]⟩ (item U.content (some i)))) =
      some (xs.map (item U.content)) := by
    simp [served, Recv.take, h.toServer]
  have hstep : s.step wanted origin (.child (.poll now [] (fun _ => 0)
      (.got ⟨[]⟩ (item U.content (some i))))) =
      some { s with
        child := c
        disk := effs.foldl Effect.onDisk s.disk
        output := s.output ++ effs.flatMap Effect.appended
        toServer := xs.map (item U.content)
        toClient := s.toClient ++ effs.filterMap Effect.sent } := by
    rw [Lossy.step, hserved, Option.bind_some, ha, Option.map_some]
  obtain ⟨xs', ys', h'⟩ := h.step hstep
  refine ⟨_, hstep, rfl, hcpc, hlen, h'.retag rfl ?_ ?_ (fun hm => h.fin (by simp [hm])) ?_⟩
  · dsimp only
    rw [hsent, h.toClient, List.map_append, List.map_singleton]
  · have hi := h.indices
    simp only [List.filterMap_cons, id] at hi
    rw [filterMap_answered]
    dsimp only
    rw [hlen]
    by_cases he : i = s.child.accepted.length
    · subst he
      simp only [GoBackN.receive, List.foldl_cons, List.foldl_nil, if_true]
      exact hi.accept
    · simp only [GoBackN.receive, List.foldl_cons, List.foldl_nil, if_neg he]
      exact (hi.lose (List.sublist_cons_self _ _) (List.Sublist.refl _)).answer
  · intro hm
    exact h.finAck (none_of_answered hm)

/-- The child receives everything on its way, here nothing but `DATA` packets; its last answer says
what it has. -/
theorem Agree.poll_all {is : List ℕ} (h : Agree U (is.map some) ys s) {t : ℤ}
    (hpc : s.child.pc = .poll t) (ht : now - t < 6) : Can wanted origin now 0 s fun u =>
      u.client = s.client ∧ (∃ t, u.child.pc = .poll t ∧ now - t < 6) ∧
      u.child.accepted.length = GoBackN.receive s.child.accepted.length is ∧
      ∃ ys', Agree U [] ys' u ∧ (is ≠ [] ∨ ys.getLast? = some (some s.child.accepted.length) →
        ys'.getLast? = some (some u.child.accepted.length)) := by
  induction is generalizing s ys t with
  | nil =>
    refine .here ⟨rfl, ⟨t, hpc, ht⟩, rfl, ys, h, ?_⟩
    rintro (hn | hl)
    · exact absurd rfl hn
    · exact hl
  | cons i is ih =>
    obtain ⟨u, hs, hclient, hupc, hlen, hu⟩ := h.poll_item hpc ht
    refine .event (n := 0) hs rfl le_rfl ((ih hu hupc (by omega)).mono le_rfl ?_)
    rintro v ⟨hv1, hv2, hv3, ys', hv4, hv5⟩
    refine ⟨hv1.trans hclient, hv2, ?_, ys', hv4, fun _ => hv5 (Or.inr (by simp))⟩
    rw [hv3, hlen]
    rfl

/-! ## The client's receives -/

/-- An acknowledgement in the client's receive loop. -/
theorem Agree.recv_answer {a : ℕ} (h : Agree U xs (some a :: ys) s) (hpc : s.client.pc = .drain)
    (hl : now - s.client.lastACK ≤ ackTimeout) : ∃ u,
      s.step wanted origin (.clientRecv [] (.got ⟨[]⟩ (answer (some a))) now) = some u ∧
      u.child = s.child ∧ u.client.pc = .drain ∧ u.client.removed.length = a ∧ u.client.created =
        s.client.created ∧
      now - u.client.lastACK ≤ ackTimeout ∧ Agree U xs ys u := by
  have hpk := isPacket_answer (some a)
  obtain ⟨c, hc⟩ : ∃ c : Client Bytes, c = { s.client with
    read := (Recv.got ⟨[]⟩ (answer (some a))).ret
    buffer := overlay (answer (some a)) [] } := ⟨_, rfl⟩
  have hstep : s.client.step readFile wanted (.recv [] (.got ⟨[]⟩ (answer (some a))) now) =
      some (Client.release (UInt16.ofNat (a + 1)) now c, []) := by
    have hret : ¬ (Recv.got ⟨[]⟩ (answer (some a))).ret < 0 := by simp [Recv.ret]
    have hcmd : command (overlay (answer (some a)) []) = cmdAck := hpk.command_overlay []
    simp only [Client.step, hpc]
    rw [Client.handle, readOnlyFrom_eq, Recv.stored, hpk.take_packetSize]
    dsimp only
    rw [if_neg (fun hh => hret hh.1), if_pos hcmd, hpk.getSeqNum_overlay, hc]
    simp [answer, ackPacket]
  have hs : s.step wanted origin (.clientRecv [] (.got ⟨[]⟩ (answer (some a))) now) =
      some { s with
        client := Client.release (UInt16.ofNat (a + 1)) now c
        toClient := ys.map answer } := by
    have htake : (Recv.got ⟨[]⟩ (answer (some a))).take s.toClient = some (ys.map answer) := by
      simp [Recv.take, h.toClient]
    rw [Lossy.step, htake, Option.bind_some, hstep, Option.map_some]
  have hwc : Client.WindowInv U.content c := by
    rw [hc]
    exact h.window.move rfl rfl rfl rfl rfl rfl (fun hp => by simp [hpc] at hp)
      (fun hl => by simp [Client.left, hpc] at hl)
  have hic : GoBackN.Inv windowSize c.removed.length s.child.accepted.length c.created
      (xs.filterMap id)
      (a :: ys.filterMap id) := by
    rw [hc]
    exact h.indices
  have hlen := length_released hwc hic List.mem_cons_self now
  have hcr : (Client.release (UInt16.ofNat (a + 1)) now c).created = s.client.created := by
    rw [Client.release_created, hc]
    rfl
  obtain ⟨xs', ys', h'⟩ := h.step hs
  refine ⟨_, hs, rfl, ?_, hlen, hcr, ?_, h'.retag h.toServer rfl ?_ ?_ ?_⟩
  · dsimp only
    rw [(Client.release_frame _ now c).1, hc]
    exact hpc
  · refine Client.release_induct (I := fun d => now - d.lastACK ≤ ackTimeout) ?_
      (by rw [hc]; exact hl)
    intro d p ps _ _ _
    simp [Client.removeFront, ackTimeout]
  · dsimp only
    rw [hlen, Client.release_created]
    exact hic.release
  · intro hm
    have := h.fin hm
    simp [Client.left, hpc] at this
  · intro hm
    have := h.finAck (by simp [hm])
    simp [Client.left, hpc] at this

/-- The client at the test of its data loop, with nothing on its way. -/
structure AtTop (U : Upload) (now : ℤ) (u : Lossy) : Prop where
  agree : Agree U [] [] u
  pc : u.client.pc = .pass ∧ u.client.written ≠ u.client.size ∨ u.client.pc = .finTop ∧
    u.client.lastACK = now
  time : now - u.client.lastACK ≤ ackTimeout

/-- Nothing to receive: the client leaves its receive loop. -/
theorem Agree.recv_again (h : Agree U [] [] s) (hpc : s.client.pc = .drain)
    (hl : now - s.client.lastACK ≤ ackTimeout) :
    ∃ u, s.step wanted origin (.clientRecv [] (.fail .again) now) = some u ∧ u.child = s.child ∧
      u.client.removed = s.client.removed ∧ AtTop U now u := by
  obtain ⟨c, hc⟩ : ∃ c : Client Bytes, c = { s.client with read := -1, buffer := overlay [] [] } :=
    ⟨_, rfl⟩
  have hstep : s.client.step readFile wanted (.recv [] (.fail .again) now) =
      some (Client.loopTop now c, []) := by
    simp only [Client.step, hpc]
    rw [Client.handle, readOnlyFrom_eq, hc]
    dsimp only
    rw [if_pos ⟨by simp [Recv.ret], rfl⟩]
    rfl
  have hs : s.step wanted origin (.clientRecv [] (.fail .again) now) =
      some { s with client := Client.loopTop now c, toClient := s.toClient } := by
    rw [Lossy.step, Recv.take, Option.bind_some, hstep, Option.map_some]
  obtain ⟨xs', ys', h'⟩ := h.step hs
  have hagree := h'.retag h.toServer h.toClient (h'.indices.lose (List.nil_sublist _)
    (List.nil_sublist _)) (by simp)
    (by simp)
  refine ⟨_, hs, rfl, ?_, hagree, ?_, ?_⟩
  · dsimp only
    rw [loopTop_removed, hc]
  · dsimp only
    rw [Client.loopTop]
    split_ifs with hne
    · exact Or.inl ⟨rfl, hne⟩
    · exact Or.inr ⟨rfl, rfl⟩
  · dsimp only
    rw [Client.loopTop]
    split_ifs
    · rw [hc]
      exact hl
    · simp [ackTimeout]

/-- The client receives everything on its way and leaves its receive loop. -/
theorem Agree.drain_all {bs : List ℕ} (h : Agree U [] (bs.map some) s) (hpc : s.client.pc = .drain)
    (hl : now - s.client.lastACK ≤ ackTimeout) : Can wanted origin now 0 s fun u =>
      u.child = s.child ∧ u.client.removed.length = bs.getLast?.getD s.client.removed.length ∧
      AtTop U now u := by
  induction bs generalizing s with
  | nil =>
    obtain ⟨u, hs, hchild, hrem, hu⟩ := h.recv_again hpc hl
    exact .event (n := 0) hs rfl le_rfl (.here ⟨hchild, by rw [hrem]; rfl, hu⟩)
  | cons b bs ih =>
    obtain ⟨u, hs, hchild, hupc, hlen, hcr, hul, hu⟩ := h.recv_answer hpc hl
    refine .event (n := 0) hs rfl le_rfl ((ih hu hupc hul).mono le_rfl ?_)
    rintro v ⟨hv1, hv2, hv3⟩
    refine ⟨hv1.trans hchild, ?_, hv3⟩
    rw [hv2, hlen, List.getLast?_cons]
    rfl

/-! ## Rounds of the data loop -/

/-- The child is in its receive loop and has time left. -/
def Polling (now : ℤ) (s : Lossy) : Prop := ∃ t, s.child.pc = .poll t ∧ now - t < 6

theorem map_some_filterMap {zs : List (Option ℕ)} (h : none ∉ zs) :
    (zs.filterMap id).map some = zs := by
  induction zs with
  | nil => rfl
  | cons z zs ih =>
    rw [List.mem_cons, not_or] at h
    cases z with
    | none => exact absurd rfl h.1
    | some i => exact congrArg (some i :: ·) (ih h.2)

/-- **The second half of a round**: what is on its way arrives, first at the child and then at the
client. -/
theorem Agree.deliver (h : Agree U xs ys s) (hpc : s.client.pc = .drain)
    (hl : now - s.client.lastACK ≤ ackTimeout) (hp : Polling now s) :
    Can wanted origin now 0 s fun u =>
      AtTop U now u ∧ Polling now u ∧ s.client.removed.length ≤ u.client.removed.length ∧
      (xs ≠ [] → u.client.removed.length = GoBackN.receive s.child.accepted.length
        (xs.filterMap id)) := by
  have hnl : ¬ s.client.left := by simp [Client.left, hpc]
  have hxs := map_some_filterMap fun hm => hnl (h.fin hm)
  obtain ⟨t, htpc, ht⟩ := hp
  rw [← hxs] at h
  refine CanReach.seq (n := 0) (m := 0) ((h.poll_all htpc ht).mono le_rfl ?_)
  rintro u ⟨hclient, hpoll, hacc, ys', hu, hlast⟩
  have hunl : ¬ u.client.left := by rw [hclient]; exact hnl
  have hys := map_some_filterMap fun hm => hunl (hu.finAck hm)
  rw [← hys] at hu hlast
  refine (hu.drain_all (by rw [hclient]; exact hpc) (by rw [hclient]; exact hl)).mono le_rfl ?_
  rintro v ⟨hchild, hrem, hv⟩
  refine ⟨hv, by rw [Polling, hchild]; exact hpoll, ?_, ?_⟩
  · rw [hrem]
    cases hb : (ys'.filterMap id).getLast? with
    | none => rw [hclient]; rfl
    | some b =>
      have hmem : b ∈ ys'.filterMap id := List.mem_of_getLast? hb
      have hbound := hu.indices.answers b (by rw [filterMap_map_some]; exact hmem)
      rw [hclient] at hbound
      exact hbound.1
  · intro hne
    have hne' : xs.filterMap id ≠ [] := by
      intro he
      rw [he, List.map_nil] at hxs
      exact hne hxs.symm
    have hb := hlast (Or.inl hne')
    rw [List.getLast?_map, Option.map_eq_some_iff] at hb
    obtain ⟨b, hb, hbv⟩ := hb
    rw [hrem, hb, ← hacc]
    exact Option.some.inj hbv

/-- A pass of the client: the window is on its way, and is full unless the file is done. -/
theorem Agree.send_window (h : Agree U xs ys s) (hpc : s.client.pc = .pass)
    (hl : now - s.client.lastACK ≤ ackTimeout) :
    ∃ u n, s.step wanted origin (.clientSend now) = some u ∧ u.child = s.child ∧
    u.client.pc = .drain ∧
      u.client.lastACK = s.client.lastACK ∧ u.client.removed = s.client.removed ∧ u.client.written =
        s.client.written ∧
      u.client.created = s.client.removed.length + n ∧
      (n < windowSize → s.client.size ≤ s.client.written) ∧
      Agree U (xs ++ (List.range' s.client.removed.length n).map some) ys u := by
  obtain ⟨c, hc⟩ : ∃ c, c = Client.fill readFile s.client := ⟨_, rfl⟩
  obtain ⟨hrem, hwr, hsz, hla, -⟩ := Client.fill_frame readFile s.client
  have hfull := Client.fill_full readFile s.client
  have hwin := (h.window.fill hpc).1
  have hcreated := Client.created_le_fill readFile s.client
  rw [← hc] at hrem hwr hsz hla hfull hwin hcreated
  have hpass : Client.passStep readFile (fun _ => true) now s.client = ({ c with pc := .drain },
      c.packets) := by
    rw [Client.passStep, ← hc, hwin.sendAll_packets]
    dsimp only
    rw [if_neg (by simp), if_neg (by omega)]
  have hs : s.step wanted origin (.clientSend now) =
      some { s with client := { c with pc := .drain }, toServer := s.toServer ++ c.packets } := by
    have hstep : s.client.step readFile wanted (.send (fun _ => true) now) =
        some ({ c with pc := .drain }, c.packets) := by
      simp only [Client.step, hpc, hpass]
    rw [Lossy.step, hstep, Option.map_some]
  have hcr : c.created = s.client.removed.length + c.packets.length := by rw [Client.created, hrem]
  obtain ⟨xs', ys', h'⟩ := h.step hs
  refine ⟨_, c.packets.length, hs, rfl, rfl, hla, hrem, hwr, hcr, ?_,
    h'.retag ?_ h.toClient ?_ ?_ ?_⟩
  · intro hn
    rw [hwr, hsz] at hfull
    omega
  · dsimp only
    rw [h.toServer, List.map_append, List.map_map, ← hrem]
    exact congrArg _ hwin.packets_eq
  · rw [List.filterMap_append, filterMap_map_some]
    have hsend := h.indices.send hcreated (by have := hwin.window; rw [hcr]; omega)
    rw [hcr, Nat.add_sub_cancel_left, ← hcr] at hsend
    rw [← hrem] at hsend ⊢
    exact hsend
  · intro hm
    rcases List.mem_append.mp hm with hm | hm
    · have := h.fin hm
      simp [Client.left, hpc] at this
    · simp at hm
  · intro hm
    have := h.finAck hm
    simp [Client.left, hpc] at this

/-- Rounds that are left: what is not acknowledged yet, in windows. -/
def rounds (U : Upload) (s : Lossy) : ℕ :=
  (chunkCount U.content - s.client.removed.length + (windowSize - 1)) / windowSize

/-- **A round**: the data loop is left, or a whole window has been acknowledged. -/
theorem Agree.round (h : Agree U xs ys s) (hpc : s.client.pc = .pass)
    (hl : now - s.client.lastACK ≤ ackTimeout) (hp : Polling now s) :
    Can wanted origin now 1 s fun u =>
      AtTop U now u ∧ Polling now u ∧ (u.client.pc = .pass → rounds U u < rounds U s) := by
  obtain ⟨u, n, hs, hchild, hupc, hula, hurem, hwr, hcr, hfull, hu⟩ := h.send_window hpc hl
  refine .event (n := 0) hs rfl le_rfl ((hu.deliver hupc (by rw [hula]; exact hl)
    (by rw [Polling, hchild]; exact hp)).mono le_rfl ?_)
  rintro v ⟨hv, hvp, hmono, hrem⟩
  refine ⟨hv, hvp, fun hvpc => ?_⟩
  have hne : v.client.written ≠ v.client.size := by
    rcases hv.pc with hp | hp
    · exact hp.2
    · rw [hp.1] at hvpc
      cases hvpc
  rw [hv.agree.window.written, hv.agree.window.size] at hne
  rw [hurem] at hmono
  have hn : windowSize ≤ n := by
    by_contra hlt
    have hsize := hfull (not_le.mp hlt)
    rw [h.window.written, h.window.size] at hsize
    have hp : payloadSize = 2043 := rfl
    rw [hp] at hne hsize
    omega
  have hw : windowSize = 50 := rfl
  -- the window reached the child whole, so its last answer is for all of it
  have hall : v.client.removed.length = s.client.removed.length + n := by
    have hxs : xs ++ (List.range' s.client.removed.length n).map some ≠ [] := by
      intro he
      have hlen := congrArg List.length he
      simp at hlen
      omega
    have hi := hu.indices
    rw [hchild, hcr, hurem, List.filterMap_append, filterMap_map_some] at hi
    have hk : s.client.removed.length + n - s.client.removed.length = n :=
      Nat.add_sub_cancel_left _ _
    have hwindow := GoBackN.Inv.receive_window (n := s.client.removed.length + n)
      (by rw [hk]; exact hi)
    rw [hk] at hwindow
    rw [hrem hxs, hchild, List.filterMap_append, filterMap_map_some, hwindow]
  have hlt : v.client.removed.length < chunkCount U.content := by
    rw [lt_chunkCount_iff]
    omega
  rw [rounds, rounds, hw, hall]
  omega

theorem Agree.leaves_pass (h : Agree U xs ys s) (hpc : s.client.pc = .pass)
    (hl : now - s.client.lastACK ≤ ackTimeout) (hp : Polling now s) :
    Can wanted origin now (rounds U s + 1) s fun u =>
      AtTop U now u ∧ Polling now u ∧ u.client.pc = .finTop := by
  refine canReach_rounds (I := fun u => (∃ xs ys, Agree U xs ys u) ∧ u.client.pc = .pass ∧
    now - u.client.lastACK ≤ ackTimeout ∧ Polling now u) (rounds U) ?_ ⟨⟨xs, ys, h⟩, hpc, hl, hp⟩
  rintro u ⟨⟨xs, ys, hu⟩, hupc, hul, hup⟩
  refine (hu.round hupc hul hup).mono le_rfl ?_
  rintro v ⟨hv, hvp, hless⟩
  rcases hv.pc with hp | hp
  · exact Or.inr ⟨⟨⟨[], [], hv.agree⟩, hp.1, hv.time, hvp⟩, hless hp.1⟩
  · exact Or.inl ⟨hv, hvp, hp.1⟩

/-- **The data loop is left** after the rounds that are left and one more. -/
theorem Agree.leaves_loop (h : Agree U xs ys s) (hpc : s.client.pc = .pass ∨ s.client.pc = .drain)
    (hl : now - s.client.lastACK ≤ ackTimeout) (hp : Polling now s) :
    Can wanted origin now (rounds U s + 1) s fun u => AtTop U now u ∧ Polling now u ∧
    u.client.pc = .finTop := by
  rcases hpc with hpc | hpc
  · exact h.leaves_pass hpc hl hp
  · refine (CanReach.seq (n := 0) (m := rounds U s + 1) ((h.deliver hpc hl hp).mono le_rfl ?_)).mono
      (by omega) fun _ h => h
    rintro u ⟨hu, hup, hmono, -⟩
    rcases hu.pc with hpc | hpc
    · refine (hu.agree.leaves_pass hpc.1 hu.time hup).mono ?_ fun _ h => h
      have : rounds U u ≤ rounds U s := Nat.div_le_div_right (by omega)
      omega
    · exact .here ⟨hu, hup, hpc.1⟩

/-! ## The closing loops -/

/-- The client is in its closing loop. -/
def Ending (s : Lossy) : Prop := s.client.pc = .finTop ∨ s.client.pc = .finRecv

theorem Ending.left (h : Ending s) : s.client.left := by
  rcases h with h | h
  · exact Or.inl h
  · exact Or.inr (Or.inl h)

theorem Agree.send_fin (h : Agree U xs ys s) (hpc : s.client.pc = .finTop)
    (hl : now - s.client.lastACK < ackTimeout) :
    ∃ u, s.step wanted origin (.clientSend now) = some u ∧ u.child = s.child ∧ Ending u ∧
    Agree U (xs ++ [none]) ys u := by
  have hs : s.step wanted origin (.clientSend now) =
      some { s with
        client := { s.client with pc := .finRecv }
        toServer := s.toServer ++ [Client.finPacket] } := by
    rw [Lossy.step]
    simp only [Client.step, hpc, if_pos hl, if_true, Option.map_some]
  obtain ⟨xs', ys', h'⟩ := h.step hs
  refine ⟨_, hs, rfl, Or.inr rfl, h'.retag ?_ h.toClient ?_ (fun _ => Or.inr (Or.inl rfl)) fun _ =>
    Or.inr (Or.inl rfl)⟩
  · dsimp only
    rw [h.toServer, List.map_append]
    rfl
  · rw [List.filterMap_append]
    simp only [List.filterMap_cons, id, List.filterMap_nil, List.append_nil]
    exact h.indices

/-- Nothing to receive in the closing loop; the fresh block is not taken for a `FINACK`. -/
theorem Agree.recv_fin (h : Agree U xs ys s) (hpc : s.client.pc = .finRecv) (later : ℤ) : ∃ u,
    s.step wanted origin (.clientRecv [] (.fail .again) later) = some u ∧ u.child = s.child ∧
    u.client.pc = .finTop ∧
      u.client.lastACK = s.client.lastACK ∧ Agree U xs ys u := by
  have hcmd : command (overlay [] []) ≠ cmdFinAck := by decide
  have hs : s.step wanted origin (.clientRecv [] (.fail .again) later) =
      some { s with
        client := { s.client with buffer := overlay [] [], pc := .finTop }
        toClient := s.toClient } := by
    rw [Lossy.step, Recv.take, Option.bind_some]
    simp only [Client.step, hpc, Option.map_some]
    rw [Client.handleFin, readOnlyFrom_eq]
    dsimp only
    rw [if_neg (by simp [Recv.ret]), Recv.stored, if_neg hcmd]
  obtain ⟨xs', ys', h'⟩ := h.step hs
  exact ⟨_, hs, rfl, rfl, rfl, h'.retag h.toServer h.toClient h.indices (fun _ => Or.inl rfl)
    fun _ => Or.inl rfl⟩

/-- The child's answer to a `FIN`: it has the whole file and goes on to its closing loop. -/
theorem Agree.poll_finPacket (h : Agree U (none :: xs) ys s) {t : ℤ} (hpc : s.child.pc = .poll t)
    (ht : now - t < 6) :
    ∃ u, s.step wanted origin
      (.child (.poll now [] (fun _ => 0) (.got ⟨[]⟩ (item U.content none)))) = some u ∧
      u.client = s.client ∧ u.child.Closing ∧ ∃ xs' ys', Agree U xs' ys' u := by
  have hpk := isPacket_item U.content none
  have hread := h.complete (h.fin (by simp))
  have hhandle : Child.handle now (fun _ => 0)
      { s.child with buffer := overlay (item U.content none) [] } =
      ({ s.child with buffer := overlay (item U.content none) [], pc := .finackTop now }, []) := by
    rw [Child.handle]
    dsimp only
    rw [if_neg (by rw [hpk.command_overlay]; exact command_item_none _),
      if_pos (by rw [hpk.command_overlay]; rfl),
      if_neg (not_not.mpr hread)]
  have ha : s.child.atomic origin (.poll now [] (fun _ => 0) (.got ⟨[]⟩ (item U.content none))) =
      _ :=
    Child.atomic_packet hpc ht hpk (by rw [hhandle]; exact ⟨fun bs => by simp, fun st => by simp⟩)
  rw [hhandle] at ha
  have hserved : s.served (.poll now [] (fun _ => 0) (.got ⟨[]⟩ (item U.content none))) =
      some (xs.map (item U.content)) := by
    simp [served, Recv.take, h.toServer]
  have hs : ∃ u, s.step wanted origin (.child (.poll now [] (fun _ => 0)
      (.got ⟨[]⟩ (item U.content none)))) = some u ∧
      u.client = s.client ∧ u.child.Closing := by
    rw [Lossy.step, hserved, Option.bind_some, ha, Option.map_some]
    exact ⟨_, rfl, rfl, Or.inl ⟨now, rfl⟩⟩
  obtain ⟨u, hs, hclient, hclosing⟩ := hs
  exact ⟨u, hs, hclient, hclosing, h.step hs⟩

/-- A `FIN` on its way reaches the child. -/
theorem Agree.poll_fin (h : Agree U xs ys s) (hm : none ∈ xs) (hp : Polling now s) :
    Can wanted origin now 0 s fun u => u.client = s.client ∧ u.child.Closing ∧
    ∃ xs' ys', Agree U xs' ys' u := by
  induction xs generalizing s ys with
  | nil => simp at hm
  | cons x xs ih =>
    obtain ⟨t, hpc, ht⟩ := hp
    cases x with
    | none =>
      obtain ⟨u, hs, hu⟩ := h.poll_finPacket hpc ht
      exact .event (n := 0) hs rfl le_rfl (.here hu)
    | some i =>
      obtain ⟨u, hs, hclient, hupc, -, hu⟩ := h.poll_item hpc ht
      refine .event (n := 0) hs rfl le_rfl ((ih hu (by simpa using hm) ⟨now, hupc, by omega⟩).mono
        le_rfl ?_)
      rintro v ⟨h1, h2, h3⟩
      exact ⟨h1.trans hclient, h2, h3⟩

/-- **The closing handshake**: one `FIN` is enough. -/
theorem Agree.closes (h : Agree U xs ys s) (he : Ending s)
    (hl : now - s.client.lastACK < ackTimeout) (hp : Polling now s) :
    Can wanted origin now 1 s fun u => Ending u ∧ u.child.Closing ∧
    ∃ xs' ys', Agree U xs' ys' u := by
  have key : ∀ {t : Lossy}, Agree U xs ys t → t.client.pc = .finTop →
      now - t.client.lastACK < ackTimeout →
      Polling now t → Can wanted origin now 1 t fun u => Ending u ∧ u.child.Closing ∧
      ∃ xs' ys', Agree U xs' ys' u := by
    intro t ht hpc hl hp
    obtain ⟨u, hs, hchild, hue, hu⟩ := ht.send_fin hpc hl
    refine .event (n := 0) hs rfl le_rfl
      ((hu.poll_fin (by simp) (by rw [Polling, hchild]; exact hp)).mono le_rfl ?_)
    rintro v ⟨hv1, hv2, hv3⟩
    exact ⟨by rw [Ending, hv1]; exact hue, hv2, hv3⟩
  rcases he with hpc | hpc
  · exact key h hpc hl hp
  · obtain ⟨u, hs, hchild, hupc, hula, hu⟩ := h.recv_fin hpc now
    exact .event (n := 1) hs rfl le_rfl (key hu hupc (by rw [hula]; exact hl)
      (by rw [Polling, hchild]; exact hp))

/-- Where a child is that has not failed. -/
theorem Agree.child_cases (h : Agree U xs ys s) (ha : Alive now s) :
    (∃ t, s.child.pc = .ackRequest t) ∨ Polling now s ∨ (s.child.Closing ∧ s.client.left) := by
  have hserv := h.serving
  cases hpc : s.child.pc with
  | ackRequest t => exact Or.inl ⟨t, rfl⟩
  | poll t => exact Or.inr (Or.inl ⟨t, hpc, ha.poll t hpc⟩)
  | finackTop t => exact Or.inr (Or.inr ⟨Or.inl ⟨t, hpc⟩, by simpa only [Serving, hpc] using hserv⟩)
  | finackRecv t =>
    exact Or.inr (Or.inr ⟨Or.inr (Or.inl ⟨t, hpc⟩), by simpa only [Serving, hpc] using hserv⟩)
  | done e =>
    obtain rfl := ha.child e hpc
    exact Or.inr (Or.inr ⟨Or.inr (Or.inr hpc), by simpa only [Serving, hpc] using hserv⟩)
  | _ => simp [Serving, hpc] at hserv

/-- The child acknowledges the request for the last time. -/
theorem Agree.ack_request (h : Agree U xs ys s) {t : ℤ} (hpc : s.child.pc = .ackRequest t) : ∃ u,
    s.step wanted origin (.child (.send true false now)) = some u ∧ u.client = s.client ∧
    Polling now u ∧
      ∃ xs' ys', Agree U xs' ys' u := by
  have hatomic : s.child.atomic origin (.send true false now) =
      some ({ s.child with pc := .poll now }, [.send (ackPacket 1)]) := by
    rw [Child.atomic]
    simp only [Child.step, hpc, Bool.not_true, Bool.false_and, Bool.false_eq_true, if_false,
      Option.bind_some]
    exact Child.settle_settled ⟨fun bs => by simp, fun st => by simp⟩
  have hs : ∃ u, s.step wanted origin (.child (.send true false now)) = some u ∧
      u.client = s.client ∧ Polling now u := by
    rw [Lossy.step, served, if_pos rfl, Option.bind_some, hatomic, Option.map_some]
    exact ⟨_, rfl, rfl, now, rfl, by omega⟩
  obtain ⟨u, hs, hclient, hup⟩ := hs
  exact ⟨u, hs, hclient, hup, h.step hs⟩

/-- **Recovery of the transfer**: nothing but a network that delivers is needed for the child to get
the whole file and the client's `FIN`. -/
theorem Agree.delivers (h : Agree U xs ys s) (ha : Alive now s) :
    Can wanted origin now (rounds U s + 2) s fun u =>
    Ending u ∧ u.child.Closing ∧ ∃ xs' ys', Agree U xs' ys' u := by
  have key : ∀ {t : Lossy} {xs ys : List (Option ℕ)}, Agree U xs ys t → t.client = s.client →
      Polling now t →
      Can wanted origin now (rounds U s + 2) t fun u => Ending u ∧ u.child.Closing ∧
      ∃ xs' ys', Agree U xs' ys' u := by
    intro t xs ys ht hclient hp
    have hrounds : rounds U t = rounds U s := by rw [rounds, rounds, hclient]
    have hdata : t.client.pc = .pass ∨ t.client.pc = .drain →
        Can wanted origin now (rounds U s + 2) t fun u => Ending u ∧ u.child.Closing ∧
        ∃ xs' ys', Agree U xs' ys' u := by
      intro hpc
      have hl := ha.data (hclient ▸ hpc)
      rw [← hrounds]
      refine CanReach.seq (n := rounds U t + 1) (m := 1)
        ((ht.leaves_loop hpc (by rw [hclient]; exact hl) hp).mono le_rfl ?_)
      rintro u ⟨hu, hup, hupc⟩
      have hul : now - u.client.lastACK < ackTimeout := by
        rcases hu.pc with hpc | hpc
        · rw [hpc.1] at hupc
          cases hupc
        · rw [hpc.2]
          simp [ackTimeout]
      exact hu.agree.closes (Or.inl hupc) hul hup
    have hfin : Ending t →
        Can wanted origin now (rounds U s + 2) t fun u => Ending u ∧ u.child.Closing ∧
        ∃ xs' ys', Agree U xs' ys' u := by
      intro he
      have hl := ha.fin (hclient ▸ he)
      exact (ht.closes he (by rw [hclient]; exact hl) hp).mono (by omega) fun _ h => h
    have hnot := ht.started
    cases hpc : t.client.pc with
    | reqSend => exact absurd hpc hnot.1
    | reqRecv => exact absurd hpc hnot.2
    | pass => exact hdata (Or.inl hpc)
    | drain => exact hdata (Or.inr hpc)
    | finTop => exact hfin (Or.inl hpc)
    | finRecv => exact hfin (Or.inr hpc)
    | done e => exact absurd (hclient ▸ hpc) (ha.client e)
  rcases h.child_cases ha with ⟨t, hpc⟩ | hp | ⟨hc, hl⟩
  · obtain ⟨u, hs, hclient, hup, xs', ys', hu⟩ := h.ack_request hpc
    exact .event hs rfl (by simp [LossyEv.isSend]) (key hu hclient hup)
  · exact key h rfl hp
  · refine .here ⟨?_, hc, xs, ys, h⟩
    rcases hl with hpc | hpc | hpc
    · exact Or.inl hpc
    · exact Or.inr hpc
    · exact absurd hpc (ha.client _)

/-! ## The end of both programs -/

/-- The client gives up waiting for a `FINACK`, and returns `0`. -/
theorem Agree.client_ends (h : Agree U xs ys s) (he : Ending s) :
    CanLater wanted origin 1 s fun u =>
      u.client.pc = .done (.returned .ok) ∧ u.child = s.child ∧ ∃ xs' ys', Agree U xs' ys' u := by
  have key : ∀ {t : Lossy}, Agree U xs ys t → t.client.pc = .finTop →
      CanLater wanted origin 1 t fun u =>
        u.client.pc = .done (.returned .ok) ∧ u.child = t.child ∧ ∃ xs' ys', Agree U xs' ys' u := by
    intro t ht hpc
    have hs : ∃ u, t.step wanted origin (.clientSend (t.client.lastACK + ackTimeout)) = some u ∧
        u.client.pc = .done (.returned .ok) ∧ u.child = t.child := by
      rw [Lossy.step]
      simp only [Client.step, hpc, add_sub_cancel_left, lt_irrefl, if_false, Option.map_some]
      exact ⟨_, rfl, rfl, rfl⟩
    obtain ⟨u, hs, hdone, hchild⟩ := hs
    exact .event (n := 0) hs ⟨_, rfl⟩ le_rfl (.here ⟨hdone, hchild, ht.step hs⟩)
  rcases he with hpc | hpc
  · exact key h hpc
  · obtain ⟨u, hs, hchild, hupc, -, hu⟩ := h.recv_fin hpc 0
    rw [← hchild]
    exact .event (n := 1) hs ⟨0, rfl⟩ le_rfl (key hu hupc)

/-- The child gives up waiting for an answer to its `FINACK`, and returns `0`. -/
theorem Agree.child_ends (h : Agree U xs ys s) (hc : s.child.Closing) :
    CanLater wanted origin 0 s fun u =>
      u.child.pc = .done (.returned .ok) ∧ u.client = s.client ∧ ∃ xs' ys', Agree U xs' ys' u := by
  have key : ∀ {t : Lossy} {xs ys : List (Option ℕ)} {since : ℤ}, Agree U xs ys t →
      t.child.pc = .finackTop since →
      CanLater wanted origin 0 t fun u =>
        u.child.pc = .done (.returned .ok) ∧ u.client = t.client ∧
          ∃ xs' ys', Agree U xs' ys' u := by
    intro t xs ys since ht hpc
    have hatomic : t.child.atomic origin (.send true false (since + ackTimeout)) =
        some (t.child.finish (.returned .ok), []) := by
      rw [Child.atomic]
      simp only [Child.step, hpc, add_sub_cancel_left, lt_irrefl, if_false, Option.bind_some]
      exact Child.settle_settled (.of_done rfl)
    have hs : ∃ u, t.step wanted origin (.child (.send true false (since + ackTimeout))) = some u ∧
        u.child.pc = .done (.returned .ok) ∧ u.client = t.client := by
      rw [Lossy.step, served, if_pos rfl, Option.bind_some, hatomic, Option.map_some]
      exact ⟨_, rfl, rfl, rfl⟩
    obtain ⟨u, hs, hdone, hclient⟩ := hs
    exact .event (n := 0) hs ⟨_, rfl⟩ le_rfl (.here ⟨hdone, hclient, ht.step hs⟩)
  rcases hc with ⟨since, hpc⟩ | ⟨since, hpc⟩ | hpc
  · exact key h hpc
  · have hstep : s.child.finackStep origin since [] (.fail .again) =
        { s.child with buffer := overlay [] [], pc := .finackTop since } := by
      rw [Child.finackStep_eq, Recv.stored, if_neg (fun hh => absurd hh.2 (by decide))]
    have hatomic : s.child.atomic origin (.poll 0 [] (fun _ => 0) (.fail .again)) =
        some ({ s.child with buffer := overlay [] [], pc := .finackTop since }, []) := by
      rw [Child.atomic]
      simp only [Child.step, hpc, hstep, Option.bind_some]
      exact Child.settle_settled ⟨fun bs => by simp, fun st => by simp⟩
    have hs : ∃ u, s.step wanted origin (.child (.poll 0 [] (fun _ => 0) (.fail .again))) = some u ∧
        u.child.pc = .finackTop since ∧ u.client = s.client := by
      rw [Lossy.step, served, Recv.take, Option.bind_some, hatomic, Option.map_some]
      exact ⟨_, rfl, rfl, rfl⟩
    obtain ⟨u, hs, hupc, hclient⟩ := hs
    obtain ⟨xs', ys', hu⟩ := h.step hs
    rw [← hclient]
    exact .event (n := 0) hs ⟨0, rfl⟩ le_rfl (key hu hupc)
  · exact .here ⟨hpc, rfl, xs, ys, h⟩

/-- A child that has answered a `FIN` has the whole file on disk. -/
theorem Agree.disk (h : Agree U xs ys s) (hc : s.child.Closing) : s.disk = some U.content := by
  have hph := h.stream.phase
  rcases hc with ⟨t, hpc⟩ | ⟨t, hpc⟩ | hpc
  · simpa only [Session.Phase, hpc] using hph
  · simpa only [Session.Phase, hpc] using hph
  · simpa only [Session.Phase, hpc] using hph

theorem Agree.both_end (h : Agree U xs ys s) (he : Ending s) (hc : s.child.Closing) :
    CanLater wanted origin 1 s fun u =>
      u.client.pc = .done (.returned .ok) ∧ u.child.pc = .done (.returned .ok) ∧
      u.disk = some U.content := by
  refine CanReach.seq (n := 1) (m := 0) ((h.client_ends he).mono le_rfl ?_)
  rintro t ⟨hdone, hchild, xs', ys', ht⟩
  refine (ht.child_ends (by rw [hchild]; exact hc)).mono le_rfl ?_
  rintro u ⟨hudone, hclient, xs'', ys'', hu⟩
  exact ⟨by rw [hclient]; exact hdone, hudone, hu.disk (Or.inr (Or.inr hudone))⟩

end Steps

/-- **Every transfer can recover.**  In every state reached after the handshake, by any losses, in
which nobody has given up: if the queues stop losing datagrams, the child can get the whole file
and the client's `FIN` while the clock stands still, with no more sends of the client than there
are windows left and two; from there both programs can return `0`, with the whole file on disk. -/
theorem recovers (U : Upload) (wanted origin : Addr) (s₀ s : Lossy) (es : List LossyEv) (now : ℤ)
    (h₀ : Start U s₀) (h : exec (step wanted origin) s₀ es = some s) (ha : Alive now s) :
    Can wanted origin now (rounds U s + 2) s fun t =>
      t.client.left ∧ t.child.Closing ∧ t.disk = some U.content ∧
      CanLater wanted origin 1 t fun u =>
        u.client.pc = .done (.returned .ok) ∧ u.child.pc = .done (.returned .ok) ∧
        u.disk = some U.content := by
  obtain ⟨xs, ys, hinv⟩ : ∃ xs ys, Agree U xs ys s := by
    refine exec_invariant (I := fun s => ∃ xs ys, Agree U xs ys s) ?_ ?_ h
    · rintro u e v ⟨xs, ys, hu⟩ hs
      exact hu.step hs
    · obtain ⟨ys, hs⟩ := Agree.start h₀
      exact ⟨[], ys, hs⟩
  refine (hinv.delivers ha).mono le_rfl ?_
  rintro t ⟨he, hc, xs', ys', ht⟩
  exact ⟨he.left, hc, ht.disk hc, ht.both_end he hc⟩

theorem start_sampleStart : Start Session.oneByte sampleStart :=
  ⟨⟨0, 0, [], rfl⟩, Or.inr ⟨0, rfl⟩, rfl, rfl, rfl, rfl, rfl, rfl, rfl, by simp [sampleStart]⟩

/-- Both parties wait since `0`. -/
theorem alive_waiting {s : Lossy} (hpc : s.client.pc = .drain) (hl : s.client.lastACK = 0)
    (hchild : s.child.pc = .poll 0) : Alive 2 s := by
  refine ⟨fun e => by simp [hpc], fun _ => by simp [hl, ackTimeout], fun hp => by simp [hpc] at hp,
    fun e he => by simp [hchild] at he, fun t ht => ?_⟩
  obtain rfl : 0 = t := by simpa [hchild] using ht
  decide

/-- A file of one byte needs one round. -/
theorem rounds_oneByte_le (s : Lossy) : rounds Session.oneByte s + 2 ≤ 3 := by
  have h : rounds Session.oneByte s ≤ rounds Session.oneByte sampleStart :=
    Nat.div_le_div_right (Nat.add_le_add_right (Nat.sub_le_sub_left (Nat.zero_le _) _) _)
  exact Nat.add_le_add_right h 2

/-- The window of a file of one byte is sent and its only packet with data is lost; two seconds
later the client is still waiting. -/
theorem recovers_lostByte : ∃ s, Start Session.oneByte sampleStart ∧
    exec (step ⟨[]⟩ ⟨[]⟩) sampleStart [.clientSend 0, .loseToServer 0] = some s ∧
    s.toServer.length = 49 ∧ Alive 2 s ∧
    Can ⟨[]⟩ ⟨[]⟩ 2 3 s fun t => t.disk = some [42] := by
  obtain ⟨s, hs, hn, hpc, hl, hchild⟩ : ∃ s,
      exec (step ⟨[]⟩ ⟨[]⟩) sampleStart [.clientSend 0, .loseToServer 0] = some s ∧
      s.toServer.length = 49 ∧
      s.client.pc = .drain ∧ s.client.lastACK = 0 ∧ s.child.pc = .poll 0 :=
        ⟨_, rfl, rfl, rfl, rfl, rfl⟩
  have ha := alive_waiting hpc hl hchild
  exact ⟨s, start_sampleStart, hs, hn, ha,
    (recovers Session.oneByte ⟨[]⟩ ⟨[]⟩ sampleStart s _ 2 start_sampleStart hs ha).mono
    (rounds_oneByte_le s) fun t ht => ht.2.2.1⟩

end Lossy

end FortyTwoHundred.Ftp
