import FortyTwoHundred.Ftp.Stream

/-!
# Transfer — when the client's success means that the file is there

The client returns `0` in three ways: it receives a `FINACK`, a receive of its closing loop fails
and leaves a buffer that starts like a `FINACK`, or the closing loop gives up after `ackTimeout`
seconds.  A `FINACK` is sent by a child that has the whole file (`StreamInv`).  In the two other
cases nothing tells the client that the child has ended well: `Confirmed` asks that it has, at that
step.

Once the child is in its closing loop it does nothing more to the file, so that what is on disk then
is there for the rest of the run.
-/

namespace FortyTwoHundred.Ftp

namespace Session

/-- The child is in its closing loop or has returned `0`. -/
def Closed (s : Session) : Prop := ∃ c, s.child = some c ∧ c.Closing

/-- The client does not end its closing loop without a `FINACK` before the child is in its own. -/
def Confirmed (s : Session) : SessionEv → Prop
  | .clientSend now => s.client.pc = .finTop → ¬ now - s.client.lastACK < ackTimeout → s.Closed
  | .clientRecv temp (.fail _) _ => s.client.pc = .finRecv → command temp = cmdFinAck → s.Closed
  | _ => True

section Steps

variable {U : Upload} {s t : Session} {wanted origin : Addr}

theorem Closed.step (h : s.Closed) {e : SessionEv} (hs : s.step wanted origin e = some t) :
    t.Closed ∧ t.disk = s.disk := by
  obtain ⟨c, hc, hcl⟩ := h
  cases e with
  | clientSend now =>
    obtain ⟨h1, h2, -, -⟩ := clientStep_frame hs
    exact ⟨⟨c, h1.trans hc, hcl⟩, h2⟩
  | clientRecv temp r now =>
    simp only [Session.step] at hs
    split_ifs at hs
    obtain ⟨h1, h2, -, -⟩ := clientStep_frame hs
    exact ⟨⟨c, h1.trans hc, hcl⟩, h2⟩
  | fork d =>
    simp only [Session.step, hc] at hs
    simp at hs
  | child i =>
    have hset : c.Settled := by
      rcases hcl with ⟨t, hpc⟩ | ⟨t, hpc⟩ | hpc
      · exact ⟨fun bs => by simp [hpc], fun st => by simp [hpc]⟩
      · exact ⟨fun bs => by simp [hpc], fun st => by simp [hpc]⟩
      · exact .of_done hpc
    obtain ⟨d, effs, ha, -, rfl⟩ := childStep_inv hc hset hs
    obtain ⟨hd, hdisk⟩ := hcl.atomic ha
    exact ⟨⟨d, rfl, hd⟩, hdisk s.disk⟩

theorem Closed.exec (h : s.Closed) {es : List SessionEv}
    (he : Machine.exec (Session.step wanted origin) s es = some t) :
    t.disk = s.disk := by
  have key : t.Closed ∧ t.disk = s.disk := by
    refine Machine.exec_invariant (I := fun u => u.Closed ∧ u.disk = s.disk) ?_ ⟨h, rfl⟩ he
    rintro u e v ⟨hu, hd⟩ hs
    obtain ⟨hv, hd'⟩ := hu.step hs
    exact ⟨hv, hd'.trans hd⟩
  exact key.2

/-- A `FINACK` in the client's buffer after a receive that did not fail: the child has sent it. -/
theorem StreamInv.finAck (h : StreamInv U s) {temp : Bytes} {src : Addr} {d : Bytes}
    (hd : d ∈ s.toClient) (hcmd : command (overlay (Recv.got src d).stored temp) = cmdFinAck) :
    s.Closed := by
  have hpk : ∀ cmd q, IsPacket (createPacket cmd q 0 []) := fun cmd q =>
      .createPacket (Nat.zero_le _) (Nat.zero_le _)
  rcases h.replies d hd with ⟨-, hcl⟩ | ⟨cmd, q, hne, rfl⟩
  · exact hcl
  · rw [Recv.stored, (hpk cmd q).take_packetSize, (hpk cmd q).command_overlay, command_createPacket]
      at hcmd
    exact absurd hcmd hne

/-- The client has returned `0` only where the child is in its closing loop. -/
def Agreed (s : Session) : Prop := s.client.pc = .done (.returned .ok) → s.Closed

theorem recvReply_not_ok {r : Recv} {now : ℤ} {c : Client Bytes} :
    (Client.recvReply r now c).pc ≠ .done (.returned .ok) := by
  rw [Client.recvReply]
  dsimp only
  split_ifs
  · simp
  · simp [Client.finish]
  · rw [Client.reply, Client.loopTop]
    split_ifs <;> simp [Client.finish]

/-- The client's way to `return 0`: its closing loop gave up, or its buffer starts like a
`FINACK`. -/
theorem returned_ok {c d : Client Bytes} {i : ClientIn} {out : List Bytes}
    (hs : c.step readFile wanted i = some (d, out)) (hok : d.pc = .done (.returned .ok)) :
    (c.pc = .finTop ∧ ∃ sendto now, i = .send sendto now ∧ ¬ now - c.lastACK < ackTimeout) ∨
      (c.pc = .finRecv ∧ ∃ temp r now, i = .recv temp r now ∧ command (overlay r.stored temp) =
        cmdFinAck) := by
  cases Client.trans_of_step hs with
  | reply hpc => exact absurd hok recvReply_not_ok
  | @pass sendto now hpc =>
    rcases Client.passStep_pc readFile sendto now c with hp | hp | hp
    all_goals simp [hp] at hok
  | @drain temp r now hpc =>
    rcases Client.handle_pc hpc ⟨r.ret, r.again, overlay r.stored temp⟩ now with hp | hp | hp | hp
    all_goals simp [hp] at hok
  | finTimeout hpc ht => exact Or.inl ⟨hpc, _, _, rfl, ht⟩
  | finRecv hpc =>
    refine Or.inr ⟨hpc, _, _, _, rfl, ?_⟩
    rw [Client.handleFin] at hok
    dsimp only at hok
    split_ifs at hok with h1 h2
    · simp [hpc] at hok
    · exact h2
  | _ => simp [Client.finish] at hok

theorem Agreed.step (h : s.Agreed) (hst : StreamInv U s) {e : SessionEv} (hc : Confirmed s e)
    (hs : s.step wanted origin e = some t) : t.Agreed := by
  intro hok
  by_cases hcl : s.Closed
  · exact (hcl.step hs).1
  · -- the child is not in its closing loop before this step, and the client does not take it there
    exfalso
    cases e with
    | clientSend now =>
      obtain ⟨⟨c, out⟩, hstep, rfl⟩ := Option.map_eq_some_iff.mp hs
      have hok' : c.pc = .done (.returned .ok) := by
        split_ifs at hok <;> exact hok
      rcases returned_ok hstep hok' with ⟨hpc, _, _, hi, ht⟩ | ⟨_, _, _, _, hi, _⟩
      · obtain ⟨-, rfl⟩ := ClientIn.send.inj hi
        exact hcl (hc hpc ht)
      · cases hi
    | clientRecv temp r now =>
      simp only [Session.step] at hs
      split_ifs at hs with hin
      obtain ⟨⟨c, out⟩, hstep, rfl⟩ := Option.map_eq_some_iff.mp hs
      have hok' : c.pc = .done (.returned .ok) := by
        split_ifs at hok <;> exact hok
      rcases returned_ok hstep hok' with ⟨_, _, _, hi, _⟩ | ⟨hpc, _, _, _, hi, hcmd⟩
      · cases hi
      · obtain ⟨rfl, rfl, rfl⟩ := ClientIn.recv.inj hi
        cases r with
        | got src d => exact hcl (hst.finAck (by simpa [Recv.inNet] using hin) hcmd)
        | fail errno => exact hcl (hc hpc (by simpa [Recv.stored, overlay] using hcmd))
    | fork d =>
      simp only [Session.step] at hs
      split_ifs at hs
      rw [← Option.some.inj hs] at hok
      exact hcl (h hok)
    | child i =>
      rw [(childStep_frame hs).1] at hok
      exact hcl (h hok)

end Steps

/-- **The client's success**: in every run in which the packets that are delivered are due and the
client does not give up before the child has answered a `FIN`, if the client has returned `0` then
the file on the server's disk is the client's file, and it stays so however the run goes on. -/
theorem transfer_complete (U : Upload) (wanted origin : Addr) (disk : Option Bytes) (now : ℤ)
    (es : List SessionEv) (s : Session)
    (hok : Machine.Meets (step wanted origin) (fun s e => Fresh U s e ∧ Confirmed s e)
      (init U disk now) es)
    (h : Machine.exec (step wanted origin) (init U disk now) es = some s)
    (hret : s.client.pc = .done (.returned .ok)) :
    s.disk = some U.content ∧
      ∀ fs t, Machine.exec (step wanted origin) s fs = some t → t.disk = some U.content := by
  obtain ⟨-, hst, hag⟩ : NetInv U s ∧ StreamInv U s ∧ s.Agreed := by
    refine Machine.exec_invariant_of_meets (I := fun s => NetInv U s ∧ StreamInv U s ∧ s.Agreed) ?_
      ⟨NetInv.init U disk now, StreamInv.init U disk now, fun hpc => by simp [init, Client.init]
      at hpc⟩ hok h
    rintro u e v ⟨hn, hst, hag⟩ ⟨hf, hc⟩ hs
    exact ⟨hn.step hs, hst.step hn hf hs, hag.step hst hc hs⟩
  obtain ⟨c, hc, hcl⟩ := hag hret
  have hdisk : s.disk = some U.content := by
    have hph := (hst.child c hc).phase
    rcases hcl with ⟨t, hpc⟩ | ⟨t, hpc⟩ | hpc
    · simpa only [Phase, hpc] using hph
    · simpa only [Phase, hpc] using hph
    · simpa only [Phase, hpc] using hph
  refine ⟨hdisk, fun fs t ht => ?_⟩
  have hclosed : s.Closed := ⟨c, hc, hcl⟩
  rw [hclosed.exec ht, hdisk]

/-- The `FIN` arrives, and so does the `FINACK`. -/
def confirmedTransfer : List SessionEv :=
  oneByteTransfer ++
    [.child (.poll 0 [] (fun _ => 0) (.got ⟨[]⟩ Client.finPacket)), .child (.send true false 0),
      .clientRecv [] (.got ⟨[]⟩ finAckPacket) 0]

theorem transfer_complete_confirmedTransfer : ∃ s,
    Machine.exec (step ⟨[]⟩ ⟨[]⟩) (init oneByte none 0) confirmedTransfer = some s ∧
    s.client.pc = .done (.returned .ok) ∧ s.disk = some [42] := by
  refine ⟨_, rfl, rfl,
    (transfer_complete oneByte ⟨[]⟩ ⟨[]⟩ none 0 confirmedTransfer _ ?_ rfl rfl).1⟩
  refine .cons rfl ⟨trivial, fun hpc => by cases hpc⟩ ?_
  refine .cons rfl ⟨trivial, trivial⟩ ?_
  refine .cons rfl ⟨fun _ _ => trivial, trivial⟩ ?_
  refine .cons rfl ⟨fun _ _ => trivial, trivial⟩ ?_
  refine .cons rfl ⟨fun _ _ => trivial, trivial⟩ ?_
  refine .cons rfl ⟨fun _ _ => trivial, trivial⟩ ?_
  refine .cons rfl ⟨trivial, trivial⟩ ?_
  refine .cons rfl ⟨trivial, fun hpc => by cases hpc⟩ ?_
  refine .cons rfl ⟨fun c hc startTime _ _ _ _ => by cases hc; rfl, trivial⟩ ?_
  refine .cons rfl ⟨trivial, trivial⟩ ?_
  refine .cons rfl ⟨trivial, fun hpc => by cases hpc⟩ ?_
  refine .cons rfl ⟨trivial, fun _ ht => absurd (by decide) ht⟩ ?_
  refine .cons rfl ⟨fun c hc startTime _ _ hcmd _ => absurd hcmd (by decide), trivial⟩ ?_
  refine .cons rfl ⟨fun _ _ => trivial, trivial⟩ ?_
  exact .cons rfl ⟨trivial, trivial⟩ trivial

/-- Every `FIN` is lost: the client gives up after two seconds and returns `0`, the child gives up
after six and unlinks the file. -/
theorem success_without_file : ∃ s t,
    Machine.exec (step ⟨[]⟩ ⟨[]⟩) (init oneByte none 0)
      (oneByteTransfer ++ [.clientRecv [] (.fail .again) 1, .clientSend 2]) = some s ∧
    s.client.pc = .done (.returned .ok) ∧
    Machine.exec (step ⟨[]⟩ ⟨[]⟩) s [.child (.poll 6 [] (fun _ => 0) (.fail .again))] = some t ∧
    t.client.pc = .done (.returned .ok) ∧ t.disk = none := by
  exact ⟨_, _, rfl, rfl, rfl, rfl, rfl⟩

end Session

end FortyTwoHundred.Ftp
