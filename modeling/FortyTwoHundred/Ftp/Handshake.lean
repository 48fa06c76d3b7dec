import FortyTwoHundred.Ftp.Client
import FortyTwoHundred.Ftp.Directory

/-!
# Handshake — the client's request and the children forked for it

The client sends its request again until a reply arrives, and the server forks a child for every
copy.  The network keeps every request and every reply ever sent: each may be delivered late, more
than once or not at all.  The directory is writable, so that every `fopen` succeeds; what the
children receive after the handshake is left open.

A child that finds the file of its request in the directory replies `EXISTS`, also when the file is
there because of an earlier copy of the same request.  The client takes the first reply it
receives.  It never ends with `FILE_EXISTS` if no child makes its check while the file is there
(`never_file_exists`).
-/

namespace FortyTwoHundred.Ftp

open Files

namespace Shared

/-- The datagrams a step of a child sends. -/
def replies (origin : ℕ → Addr) (s : Shared) : SharedEv → List Bytes
  | .fork _ => []
  | .child k i =>
    match (s.children k).bind fun c => c.step (origin k) i with
    | some p => p.2.filterMap Effect.sent
    | none => []

end Shared

structure Handshake where
  client : Client Bytes
  server : Shared
  requests : List Bytes
  toClient : List Bytes

inductive HandshakeEv
  | clientSend (now : ℤ)
  | clientRecv (temp : Bytes) (r : Recv) (now : ℤ)
  | server (e : SharedEv)

namespace Handshake

/-- A child is forked for a request that was sent, and `fopen` succeeds. -/
def allows (s : Handshake) : SharedEv → Bool
  | .fork d => decide (d ∈ s.requests)
  | .child _ (.fopen ok _) => ok
  | _ => true

/-- A receive that fails, or gives a reply that was sent. -/
def delivers (s : Handshake) : Recv → Bool
  | .got _ d => decide (d ∈ s.toClient)
  | .fail _ => true

def step (wanted : Addr) (origin : ℕ → Addr) (s : Handshake) : HandshakeEv → Option Handshake
  | .clientSend now =>
    (s.client.step readFile wanted (.send (fun _ => true) now)).map fun p =>
      if s.client.pc = .reqSend then { s with client := p.1, requests := s.requests ++ p.2 }
        else { s with client := p.1 }
  | .clientRecv temp r now =>
    if s.delivers r then
      (s.client.step readFile wanted (.recv temp r now)).map fun p => { s with client := p.1 }
    else none
  | .server e =>
    if s.allows e then
      (s.server.step origin e).map fun t =>
        { s with server := t, toClient := s.toClient ++ s.server.replies origin e }
    else none

/-- The client at the start of `copy_file`, no child yet, and the directory as it is. -/
def init (content name : Bytes) (now : ℤ) (server : Shared) : Handshake :=
  ⟨Client.init content content.length name now, server, [], []⟩

/-- A child that makes its check does not find the file. -/
def NoFile (s : Handshake) : HandshakeEv → Prop
  | .server (.child k (.access _)) =>
    ∀ c, s.server.children k = some c → c.pc = .access → s.server.fs.dir c.filename = none
  | _ => True

/-- No `EXISTS` is on its way or about to be sent. -/
structure Inv (s : Handshake) : Prop where
  deny : ∀ {k c cmd status}, s.server.children k = some c → c.pc = .deny cmd status →
    cmd ≠ cmdExists
  replies : ∀ d ∈ s.toClient, ∃ cmd q, cmd ≠ cmdExists ∧ d = createPacket cmd q 0 []
  client : s.client.pc ≠ .done (.exited .fileExists)

section Steps

variable {s t : Handshake} {wanted : Addr} {origin : ℕ → Addr}

/-- A child denies a request as badly formed, or because of its file. -/
theorem deny_of_trans {a : Addr} {c d : Child} {i : ChildIn} {effs : List Effect} {cmd : Byte}
    {status : Status} (ht : Child.Trans a c i d effs) (hpc : d.pc = .deny cmd status)
    (hacc : i ≠ .access true) (hfopen : ∀ now, i ≠ .fopen false now) : cmd = cmdBadReq := by
  cases ht with
  | start h =>
    rw [Child.parse] at hpc
    split_ifs at hpc
    · simp [Child.finish] at hpc
    · exact (ChildPc.deny.inj hpc).1.symm
    · cases hreq : parseRequest (c.buffer.drop headerSize) with
      | none =>
        simp only [hreq] at hpc
        exact (ChildPc.deny.inj hpc).1.symm
      | some req => simp [hreq] at hpc
  | @access found h =>
    cases found with
    | true => exact absurd rfl hacc
    | false =>
      rw [Child.check, if_neg (by simp)] at hpc
      cases hv : scanSize c.sizeText with
      | none => simp [hv, Child.finish] at hpc
      | some v =>
        simp only [hv] at hpc
        split_ifs at hpc
        · simp [Child.finish] at hpc
  | noCreate h => exact absurd rfl (hfopen _)
  | ackAgain h _ => simp [h] at hpc
  | idle h _ _ => simp [h] at hpc
  | datagram h _ _ =>
    rw [Child.handle] at hpc
    split_ifs at hpc
  | fwrite h _ =>
    rw [Child.afterWrite] at hpc
    split_ifs at hpc
    simp [Child.finish] at hpc
  | @finackRecv t now temp beyond r h =>
    rcases (c.finackStep_frame a t temp r).1 with hp | hp
    · simp [hp] at hpc
    · simp [hp] at hpc
  | _ => simp [Child.finish] at hpc

theorem Inv.server (h : s.Inv) {e : SharedEv} (hf : s.NoFile (.server e))
    (hs : s.step wanted origin (.server e) = some t) : t.Inv := by
  simp only [Handshake.step] at hs
  split_ifs at hs with hallow
  obtain ⟨u, hu, rfl⟩ := Option.map_eq_some_iff.mp hs
  cases e with
  | fork m =>
    obtain rfl := Option.some.inj hu
    refine ⟨?_, ?_, h.client⟩
    · intro k c cmd status hc hpc
      by_cases hk : k = s.server.forked
      · subst hk
        simp only [Function.update_self, Option.some.injEq] at hc
        subst hc
        simp [Child.init] at hpc
      · simp only [Function.update_of_ne hk] at hc
        exact h.deny hc hpc
    · intro d hd
      simp only [Shared.replies, List.append_nil] at hd
      exact h.replies d hd
  | child k i =>
    obtain ⟨c, d, effs, hc, hcan, hstep, rfl⟩ := Shared.step_child hu
    have htr := Child.trans_of_step hstep
    refine ⟨?_, ?_, h.client⟩
    · intro j b cmd status hb hpc
      by_cases hjk : j = k
      · subst hjk
        simp only [Function.update_self, Option.some.injEq] at hb
        subst hb
        -- the condition rules out a check that finds the file, the writable directory an `fopen`
        -- that fails
        have hacc : i ≠ .access true := by
          rintro rfl
          have hpc' : c.pc = .access := by cases htr; assumption
          have hd := hf c hc hpc'
          simp [Shared.allows, hd] at hcan
        have hfopen : ∀ now, i ≠ .fopen false now := by
          rintro now rfl
          simp [allows] at hallow
        rw [deny_of_trans htr hpc hacc hfopen]
        decide
      · simp only [Function.update_of_ne hjk] at hb
        exact h.deny hb hpc
    · intro m hm
      rcases List.mem_append.mp hm with hm | hm
      · exact h.replies m hm
      · simp only [Shared.replies, hc, Option.bind_some, hstep] at hm
        obtain ⟨e, he, hem⟩ := List.mem_filterMap.mp hm
        cases e with
        | send m' =>
          obtain rfl : m' = m := by simpa [Effect.sent] using hem
          rcases htr.sent he with ⟨cmd, status, hpc, rfl⟩ | ⟨q, rfl⟩ | ⟨rfl, -⟩
          · exact ⟨cmd, 0, h.deny hc hpc, rfl⟩
          · exact ⟨cmdAck, q, by decide, rfl⟩
          · exact ⟨cmdFinAck, 0, by decide, rfl⟩
        | _ => simp [Effect.sent] at hem

/-- The client ends with `FILE_EXISTS` on an `EXISTS` reply only. -/
theorem fileExists_of_step {c d : Client Bytes} {i : ClientIn} {out : List Bytes}
    (hs : c.step readFile wanted i = some (d, out)) (hpc : d.pc = .done (.exited .fileExists)) :
    ∃ temp src m now, i = .recv temp (.got src m) now ∧
    command (overlay (Recv.got src m).stored c.buffer) = cmdExists := by
  cases Client.trans_of_step hs with
  | @reply temp r now h =>
    rw [Client.recvReply] at hpc
    dsimp only at hpc
    split_ifs at hpc with h1 h2
    · simp [Client.finish] at hpc
    · cases r with
      | fail errno => simp [Recv.ret] at h2
      | got src m =>
        refine ⟨temp, src, m, now, rfl, ?_⟩
        -- any other command byte leads to another exit or into the data loop
        by_contra hne
        rw [Client.reply] at hpc
        split_ifs at hpc
        · rw [Client.loopTop] at hpc
          split_ifs at hpc
        · simp [Client.finish] at hpc
        · rw [Client.loopTop] at hpc
          split_ifs at hpc
  | @pass sendto now h =>
    rcases Client.passStep_pc readFile sendto now c with hp | hp | hp
    all_goals simp [hp] at hpc
  | @drain temp r now h =>
    rcases Client.handle_pc h ⟨r.ret, r.again, overlay r.stored temp⟩ now with hp | hp | hp | hp
    all_goals simp [hp] at hpc
  | finRecv h =>
    rw [Client.handleFin] at hpc
    dsimp only at hpc
    split_ifs at hpc
    · simp [h] at hpc
    · simp [Client.finish] at hpc
  | _ => simp [Client.finish] at hpc

theorem Inv.step (h : s.Inv) {e : HandshakeEv} (hf : s.NoFile e)
    (hs : s.step wanted origin e = some t) : t.Inv := by
  cases e with
  | clientSend now =>
    obtain ⟨⟨d, out⟩, hstep, rfl⟩ := Option.map_eq_some_iff.mp hs
    have hpc : d.pc ≠ .done (.exited .fileExists) := by
      intro hpc
      obtain ⟨_, _, _, _, hi, -⟩ := fileExists_of_step hstep hpc
      cases hi
    split_ifs
    · exact ⟨h.deny, h.replies, hpc⟩
    · exact ⟨h.deny, h.replies, hpc⟩
  | clientRecv temp r now =>
    simp only [Handshake.step] at hs
    split_ifs at hs with hin
    obtain ⟨⟨d, out⟩, hstep, rfl⟩ := Option.map_eq_some_iff.mp hs
    refine ⟨h.deny, h.replies, fun hpc => ?_⟩
    obtain ⟨_, src, m, _, hi, hcmd⟩ := fileExists_of_step hstep hpc
    obtain ⟨rfl, rfl, rfl⟩ := ClientIn.recv.inj hi
    obtain ⟨cmd, q, hne, rfl⟩ := h.replies m (by simpa [delivers] using hin)
    have hpk : IsPacket (createPacket cmd q 0 []) := .createPacket (Nat.zero_le _) (Nat.zero_le _)
    rw [Recv.stored, hpk.take_packetSize, hpk.command_overlay, command_createPacket] at hcmd
    exact hne hcmd
  | server e => exact h.server hf hs

end Steps

/-- **The request**: in every run of the client, the listener and its children in a writable
directory in which no child makes its check while the file is there, the client never ends with
`FILE_EXISTS`. -/
theorem never_file_exists (content name : Bytes) (now : ℤ) (wanted : Addr) (origin : ℕ → Addr)
    (server : Shared) (es : List HandshakeEv) (s : Handshake) (h₀ : server.Start)
    (hok : Machine.Meets (step wanted origin) NoFile (init content name now server) es)
    (h : Machine.exec (step wanted origin) (init content name now server) es = some s) :
    s.client.pc ≠ .done (.exited .fileExists) := by
  have hinit : (init content name now server).Inv := by
    refine ⟨?_, by simp [init], by simp [init, Client.init]⟩
    intro k c cmd status hc
    have hnone : (init content name now server).server.children k = none := h₀.children k
    rw [hnone] at hc
    cases hc
  exact (Machine.exec_invariant_of_meets (fun _ _ _ hI hf hs => hI.step hf hs) hinit hok h).client

/-- The request for `a` is accepted by child `0`. -/
def accepted : List HandshakeEv :=
  [.clientSend 0, .server (.fork (requestPacket [97] 1)), .server (.child 0 (.setup true)),
    .server (.child 0 (.access false)), .server (.child 0 (.fopen true 0)),
    .server (.child 0 (.send true false 0))]

theorem never_file_exists_accepted : ∃ s,
    Machine.exec (step ⟨[]⟩ fun _ => ⟨[]⟩) (init [42] [97] 0 Shared.empty)
      (accepted ++ [.clientRecv [] (.got ⟨[]⟩ (ackPacket 1)) 0]) = some s ∧
    s.client.pc = .pass ∧ s.client.pc ≠ .done (.exited .fileExists) := by
  obtain ⟨s, hs, hpc⟩ : ∃ s, Machine.exec (step ⟨[]⟩ fun _ => ⟨[]⟩) (init [42] [97] 0 Shared.empty)
      (accepted ++ [.clientRecv [] (.got ⟨[]⟩ (ackPacket 1)) 0]) = some s ∧ s.client.pc = .pass :=
      ⟨_, rfl, rfl⟩
  refine ⟨s, hs, hpc, never_file_exists [42] [97] 0 _ _ Shared.empty _ s Shared.start_empty ?_ hs⟩
  refine .cons rfl trivial (.cons rfl trivial (.cons rfl trivial ?_))
  exact .cons rfl (fun _ _ _ => rfl)
    (.cons rfl trivial (.cons rfl trivial (.cons rfl trivial trivial)))

/-- The acknowledgement is late, the client sends its request again, and the child of that copy
finds the file. -/
theorem own_request_denied : ∃ s,
    Machine.exec (step ⟨[]⟩ fun _ => ⟨[]⟩) (init [42] [97] 0 Shared.empty)
      (accepted ++ [.clientRecv [] (.fail .again) 0, .clientSend 0,
        .server (.fork (requestPacket [97] 1)),
        .server (.child 1 (.setup true)), .server (.child 1 (.access true)),
        .server (.child 1 (.send true false 0)), .clientRecv []
        (.got ⟨[]⟩ (createPacket cmdExists 0 0 [])) 0]) = some s ∧
    s.client.pc = .done (.exited .fileExists) :=
  ⟨_, rfl, rfl⟩

end Handshake

end FortyTwoHundred.Ftp
