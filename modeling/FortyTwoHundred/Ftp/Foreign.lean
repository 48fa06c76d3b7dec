import FortyTwoHundred.Lib.Insert
import FortyTwoHundred.Ftp.Window
import FortyTwoHundred.Ftp.Server

/-!
# Foreign — datagrams that do not come from the peer

`read_only_from` is meant to discard them; its test lets everything through, so a foreign datagram
is handled like one of the peer.  Two runs of a client and a child (`Pair`) are compared, one with
foreign datagrams inserted at any points of the data phase, and one without them.

They agree if every inserted datagram is one that the loop it comes to takes no notice of, so that
it is neither answered nor acted on (`Client.Ignores`, `Child.Ignores`).  In the closing loops a
datagram makes no further turn where it comes instead of a receive that fails (`Client.Instead`,
`Child.Instead`).  A datagram that the child takes no notice of still restarts its wait of six
seconds; `Child.SameWait` asks that this makes no difference.
-/

namespace FortyTwoHundred.Ftp

/-- What a receive of the datagram leaves in the buffer. -/
def inBuffer (m temp : Bytes) : Bytes := overlay (m.take packetSize) temp

theorem overlay_stored (src : Addr) (m temp : Bytes) :
    overlay (Recv.got src m).stored temp = inBuffer m temp := rfl

/-! ## The client -/

namespace Client

variable {φ : Type} {fread : φ → ℕ → Bytes × φ} {wanted : Addr}

/-- The same but for the buffer, and for `read` where it is set before it is used. -/
def Same (c d : Client φ) : Prop :=
  c.InData ∧ ∃ b r, d = { c with buffer := b, read := r } ∧ (c.pc = .pass → r = c.read)

/-- An `ACK` with this number takes no packet off the list. -/
def Keeps (acked : UInt16) : List Bytes → Prop
  | [] => True
  | p :: ps => acked = getSeqNum p ∨ outside acked (getSeqNum p) (getSeqNum ((p :: ps).getLastD p))

/-- In the closing loop a receive that fails, and a foreign datagram instead: either way the turn
ends without `FINACK`. -/
def Instead (wanted : Addr) (c : Client φ) : ClientIn → ClientIn → Prop
  | .recv temp (.fail .again) _, .recv temp' (.got src m) _ =>
    src ≠ wanted ∧ c.pc = .finRecv ∧ command temp ≠ cmdFinAck ∧
      (m = [] ∨ command (inBuffer m temp') ≠ cmdAck) ∧ command (inBuffer m temp') ≠ cmdFinAck
  | _, _ => False

/-- The buffer is only written by the fill loop. -/
theorem fill_buffer (fread : φ → ℕ → Bytes × φ) (c : Client φ) (b : Bytes) :
    ∃ b', fill fread { c with buffer := b } = { fill fread c with buffer := b' } := by
  have key : ∀ (n : ℕ) (c : Client φ) (b : Bytes),
      ∃ b', fillLoop fread n { c with buffer := b } = { fillLoop fread n c with buffer := b' } := by
    intro n
    induction n with
    | zero => intro c b; exact ⟨b, rfl⟩
    | succ n ih =>
      intro c b
      rw [fillLoop, fillLoop]
      dsimp only
      split_ifs
      · exact ih (addPacket fread c) _
      · exact ⟨b, rfl⟩
  exact key windowSize c b

theorem passStep_buffer (fread : φ → ℕ → Bytes × φ) (sendto : Bytes → Bool) (now : ℤ)
    (c : Client φ) (b : Bytes) :
    ∃ b', passStep fread sendto now { c with buffer := b } =
      ({ (passStep fread sendto now c).1 with buffer := b' }, (passStep fread sendto now c).2) := by
  obtain ⟨b', hfill⟩ := fill_buffer fread c b
  refine ⟨b', ?_⟩
  rw [passStep, passStep, hfill]
  dsimp only
  split_ifs <;> rfl

section Step

variable {c : Client φ} (sendto : Bytes → Bool) (temp : Bytes) (r : Recv) (now : ℤ)

theorem step_pass (h : c.pc = .pass) :
    step fread wanted c (.send sendto now) = some (passStep fread sendto now c) := by
  simp only [step, h]

theorem step_finTop (h : c.pc = .finTop) :
    step fread wanted c (.send sendto now) =
      if now - c.lastACK < ackTimeout then
        some ({ c with pc := .finRecv }, if sendto finPacket then [finPacket] else [])
      else some (c.finish (.returned .ok), []) := by
  simp only [step, h]

theorem step_drain (h : c.pc = .drain) :
    step fread wanted c (.recv temp r now) =
      some (handle ⟨r.ret, r.again, overlay r.stored temp⟩ now c, []) := by
  simp only [step, h]
  rfl

theorem step_finRecv (h : c.pc = .finRecv) :
    step fread wanted c (.recv temp r now) =
      some (handleFin ⟨r.ret, r.again, overlay r.stored temp⟩ c, []) := by
  simp only [step, h]
  rfl

end Step

/-- A step that both runs take, with what it sends. -/
theorem Same.step {c d c' : Client φ} (h : Same c d) {i : ClientIn} {out : List Bytes}
    (hs : c.step fread wanted i = some (c', out)) :
    ∃ d', d.step fread wanted i = some (d', out) ∧ Same c' d' := by
  have hdata : c'.InData := h.1.step hs
  obtain ⟨hc, b, r, rfl, hr⟩ := h
  cases trans_of_step hs with
  | request hpc hsend => exact absurd hpc hc.1
  | noRequest hpc => exact absurd hpc hc.1
  | reply hpc => exact absurd hpc hc.2
  | @pass sendto now hpc =>
    obtain rfl := hr hpc
    obtain ⟨b', hb⟩ := passStep_buffer fread sendto now c b
    refine ⟨{ (passStep fread sendto now c).1 with buffer := b' }, ?_, hdata, b', _, rfl,
      fun _ => rfl⟩
    have hstep : Client.step fread wanted { c with buffer := b } (.send sendto now) =
        some (passStep fread sendto now { c with buffer := b }) := step_pass sendto now hpc
    rw [hstep, hb]
  | @drain temp q now hpc =>
    -- the buffer and `read` are set by the receive
    exact ⟨_, step_drain temp q now hpc, hdata, _, _, rfl, fun _ => rfl⟩
  | @fin sendto now hpc ht =>
    refine ⟨{ c with buffer := b, read := r, pc := .finRecv }, ?_, hdata, b, r, rfl, fun hp => ?_⟩
    · rw [step_finTop sendto now (by exact hpc)]
      exact if_pos ht
    · cases hp
  | @finTimeout sendto now hpc ht =>
    refine ⟨{ c with buffer := b, read := r, pc := .done (.returned .ok) }, ?_, hdata, b, r, rfl,
      fun hp => ?_⟩
    · rw [step_finTop sendto now (by exact hpc)]
      exact if_neg ht
    · cases hp
  | @finRecv temp q now hpc =>
    refine ⟨_, step_finRecv temp q now hpc, hdata, ?_⟩
    rw [handleFin, handleFin]
    dsimp only
    split_ifs
    · exact ⟨_, r, rfl, fun hp => by simp [hpc] at hp⟩
    · exact ⟨_, r, rfl, fun hp => by simp [finish] at hp⟩
    · exact ⟨_, r, rfl, fun hp => by simp at hp⟩

/-- A turn of the closing loop that ends without `FINACK` leads to the next one. -/
theorem handleFin_again (c : Client φ) (r : Recv) (temp : Bytes)
    (hack : ¬ (0 < r.ret ∧ command (overlay r.stored temp) = cmdAck))
    (hfin : command (overlay r.stored temp) ≠ cmdFinAck) :
    handleFin ⟨r.ret, r.again, overlay r.stored temp⟩ c =
      { c with buffer := overlay r.stored temp, pc := .finTop } := by
  rw [handleFin]
  dsimp only
  rw [if_neg hack, if_neg hfin]

/-- A datagram that comes instead of a receive that fails. -/
theorem Same.instead {c d c' : Client φ} (h : Same c d) {i i' : ClientIn}
    (hi : d.Instead wanted i i') {out : List Bytes}
    (hs : c.step fread wanted i = some (c', out)) :
    ∃ d', d.step fread wanted i' = some (d', out) ∧ Same c' d' := by
  have hdata : c'.InData := h.1.step hs
  obtain ⟨-, b, r, rfl, -⟩ := h
  unfold Instead at hi
  split at hi
  · next temp now temp' src m now' =>
    obtain ⟨-, hpc, hold, hack, hfin⟩ := hi
    have hpc' : c.pc = .finRecv := hpc
    rw [step_finRecv temp _ now hpc', Option.some.injEq, Prod.mk.injEq] at hs
    obtain ⟨rfl, rfl⟩ := hs
    have hfail : ¬ (0 < (Recv.fail .again).ret ∧
        command (overlay (Recv.fail .again).stored temp) = cmdAck) := by simp [Recv.ret]
    have hgot : ¬ (0 < (Recv.got src m).ret ∧
        command (overlay (Recv.got src m).stored temp') = cmdAck) := by
      rintro ⟨hret, hcmd⟩
      rcases hack with rfl | hack
      · simp [Recv.ret] at hret
      · exact hack hcmd
    have hturn := handleFin_again c (.fail .again) temp hfail hold
    refine ⟨_, step_finRecv temp' _ now' hpc, hdata, inBuffer m temp', r, ?_, fun hp => ?_⟩
    · rw [handleFin_again _ (.got src m) temp' hgot hfin, hturn]
      rfl
    · rw [hturn] at hp
      cases hp
  · exact absurd hi id

end Client

/-! ## The child -/

namespace Child

/-- The request has been read and accepted. -/
def InData (c : Child) : Prop :=
  match c.pc with
  | .start | .access | .fopen | .deny _ _ => False
  | _ => True

/-- The same but for the buffer and for the start of the wait. -/
def Same (c d : Child) : Prop :=
  c.InData ∧ ∃ b pc, d = { c with buffer := b, pc := pc } ∧
    (pc = c.pc ∨ ∃ t t', c.pc = .poll t ∧ pc = .poll t')

/-- In the closing loop a receive that fails, and a foreign datagram instead: neither ends it. -/
def Instead (origin : Addr) (c : Child) : ChildIn → ChildIn → Prop
  | .poll _ temp _ (.fail .again), .poll _ temp' _ (.got src m) =>
    src ≠ origin ∧ (∃ t, c.pc = .finackRecv t) ∧ command temp ≠ cmdAck ∧
      (m = [] ∨ command (inBuffer m temp') ≠ cmdAck)
  | _, _ => False

/-- The two waits are over at the same polls. -/
def SameWait (c d : Child) : ChildIn → Prop
  | .poll now _ _ _ => ∀ t t', c.pc = .poll t → d.pc = .poll t' → (now - t < 6 ↔ now - t' < 6)
  | _ => True

variable {origin : Addr}

theorem InData.handle (now : ℤ) (beyond : ℕ → Byte) (c : Child) :
    (handle now beyond c).1.InData := by
  rw [Child.handle]
  split_ifs <;> trivial

/-- A step that both runs take: it does the same in both. -/
theorem Same.step {c d c' : Child} (h : Same c d) {i : ChildIn} {effs : List Effect}
    (hw : SameWait c d i) (hs : c.step origin i = some (c', effs)) :
    ∃ d', d.step origin i = some (d', effs) ∧ Same c' d' := by
  obtain ⟨hc, b, pc, rfl, hpc⟩ := h
  -- outside the receive loop the two are at the same point
  have hsame : ∀ {q : ChildPc}, c.pc = q → (∀ t, q ≠ .poll t) → pc = q := by
    intro q hq hne
    rcases hpc with rfl | ⟨t, t', ht, -⟩
    · exact hq
    · exact absurd (hq.symm.trans ht) (hne t)
  have hpoll : ∀ {t : ℤ}, c.pc = .poll t → ∃ t', pc = .poll t' := by
    intro t hq
    rcases hpc with rfl | ⟨_, t', -, ht'⟩
    · exact ⟨t, hq⟩
    · exact ⟨t', ht'⟩
  cases trans_of_step hs with
  | start h => simp [InData, h] at hc
  | access h => simp [InData, h] at hc
  | create h => simp [InData, h] at hc
  | noCreate h => simp [InData, h] at hc
  | denied h => simp [InData, h] at hc
  | notDenied h => simp [InData, h] at hc
  | @noAck st again now h =>
    obtain rfl := hsame h (by simp)
    exact ⟨_, rfl, trivial, b, _, rfl, Or.inl rfl⟩
  | @ackAgain st now h ht =>
    obtain rfl := hsame h (by simp)
    exact ⟨_, by simp [Child.step, ht], hc, b, _, rfl, Or.inl h.symm⟩
  | @ack st again now h ht =>
    obtain rfl := hsame h (by simp)
    exact ⟨_, by simp [Child.step, ht], trivial, b, _, rfl, Or.inl rfl⟩
  | @idle st now temp beyond r h ht hr =>
    obtain ⟨t', rfl⟩ := hpoll h
    have ht' : now - t' < 6 := (hw st t' h rfl).mp ht
    refine ⟨_, ?_, ?_, overlay r.stored temp, .poll t', rfl, Or.inr ⟨st, t', h, rfl⟩⟩
    · simp only [Child.step]
      rw [pollStep_eq, if_pos ht', if_neg hr]
    · simp [InData, h]
  | @timeout st now temp beyond r h ht =>
    obtain ⟨t', rfl⟩ := hpoll h
    have ht' : ¬ now - t' < 6 := fun hlt => ht ((hw st t' h rfl).mpr hlt)
    refine ⟨_, ?_, trivial, b, _, rfl, Or.inl rfl⟩
    simp only [Child.step]
    rw [pollStep_eq, if_neg ht']
  | @datagram st now temp beyond r h ht hr =>
    obtain ⟨t', rfl⟩ := hpoll h
    have ht' : now - t' < 6 := (hw st t' h rfl).mp ht
    refine ⟨(Child.handle now beyond { c with buffer := overlay r.stored temp }).1, ?_,
      InData.handle now beyond _,
      _, _, rfl, Or.inl rfl⟩
    simp only [Child.step]
    -- every branch of the receive loop sets the point it goes on from
    rw [pollStep_eq, if_pos ht', if_pos hr, Child.handle, Child.handle]
  | @fwrite pending n now h hn =>
    obtain rfl := hsame h (by simp)
    refine ⟨_, by simp only [Child.step]; rw [if_pos hn], ?_⟩
    rw [afterWrite, afterWrite]
    dsimp only
    split_ifs
    · exact ⟨trivial, b, _, rfl, Or.inl rfl⟩
    · exact ⟨trivial, b, _, rfl, Or.inl rfl⟩
    · exact ⟨trivial, b, _, rfl, Or.inl rfl⟩
  | @unlink status h =>
    obtain rfl := hsame h (by simp)
    exact ⟨_, rfl, trivial, b, _, rfl, Or.inl rfl⟩
  | @finack t ok again now h ht =>
    obtain rfl := hsame h (by simp)
    refine ⟨_, by simp only [Child.step]; rw [if_pos ht], trivial, b, _, rfl, Or.inl rfl⟩
  | @finackTimeout t ok again now h ht =>
    obtain rfl := hsame h (by simp)
    refine ⟨_, by simp only [Child.step]; rw [if_neg ht]; rfl, trivial, b, _, rfl, Or.inl rfl⟩
  | @finackRecv t now temp beyond r h =>
    obtain rfl := hsame h (by simp)
    refine ⟨_, rfl, ?_⟩
    rw [finackStep_eq, finackStep_eq]
    split_ifs
    · exact ⟨trivial, _, _, rfl, Or.inl rfl⟩
    · exact ⟨trivial, _, _, rfl, Or.inl rfl⟩

/-- A turn of the closing loop that ends without an `ACK` leads to the next one. -/
theorem finackStep_again {c : Child} {t : ℤ} {temp : Bytes} {r : Recv}
    (h : r.ret = 0 ∨ command (overlay r.stored temp) ≠ cmdAck) :
    c.finackStep origin t temp r =
      { c with buffer := overlay r.stored temp, pc := .finackTop t } := by
  rw [finackStep_eq, if_neg]
  rintro ⟨hret, hack⟩
  rcases h with h | h
  · exact hret h
  · exact h hack

/-- A datagram that comes instead of a receive that fails. -/
theorem Same.instead {c d c' : Child} (h : Same c d) {i i' : ChildIn} (hi : d.Instead origin i i')
    {effs : List Effect} (hs : c.step origin i = some (c', effs)) :
    ∃ d', d.step origin i' = some (d', effs) ∧ Same c' d' := by
  obtain ⟨-, b, pc, rfl, hpc⟩ := h
  unfold Instead at hi
  split at hi
  · next now temp beyond now' temp' beyond' src m =>
    obtain ⟨-, ⟨t, rfl⟩, hold, hcmd⟩ := hi
    have hc : c.pc = .finackRecv t := by
      rcases hpc with hpc | ⟨u, u', -, hu⟩
      · exact hpc.symm
      · cases hu
    have hold' : (Recv.fail .again).ret = 0 ∨
        command (overlay (Recv.fail .again).stored temp) ≠ cmdAck := Or.inr hold
    simp only [Child.step, hc] at hs
    rw [finackStep_again hold', Option.some.injEq, Prod.mk.injEq] at hs
    obtain ⟨rfl, rfl⟩ := hs
    refine ⟨{ c with buffer := inBuffer m temp', pc := .finackTop t }, ?_, trivial,
      inBuffer m temp', .finackTop t, rfl, Or.inl rfl⟩
    simp only [Child.step]
    rw [finackStep_again ?_, overlay_stored]
    rcases hcmd with rfl | hcmd
    · exact Or.inl rfl
    · exact Or.inr hcmd
  · exact absurd hi id

end Child

/-- The same but for the buffer and for the start of the wait. -/
def Solo.Same (s t : Solo) : Prop := s.child.Same t.child ∧ t.disk = s.disk ∧ t.opened = s.opened

/-! ## The two runs -/

/-- A client and a child in the data phase, each with all that has been sent to it by the other. -/
structure Pair (φ : Type) where
  client : Client φ
  solo : Solo
  toChild : List Bytes
  toClient : List Bytes

inductive PairEv
  | client (i : ClientIn)
  | child (i : ChildIn)

/-- A receive that fails, gives a datagram of the peer, late, again or out of order, or a foreign
one. -/
def Recv.arrives (peer : Addr) (net : List Bytes) : Recv → Bool
  | .got src d => decide (src = peer → d ∈ net)
  | .fail _ => true

namespace Pair

variable {φ : Type} (fread : φ → ℕ → Bytes × φ) (wanted origin : Addr)

def clientGets (s : Pair φ) : ClientIn → Bool
  | .recv _ r _ => r.arrives wanted s.toClient
  | .send _ _ => true

def childGets (s : Pair φ) : ChildIn → Bool
  | .poll _ _ _ r => r.arrives origin s.toChild
  | _ => true

def step (s : Pair φ) : PairEv → Option (Pair φ)
  | .client i =>
    if s.clientGets wanted i then
      (s.client.step fread wanted i).map fun p =>
        { s with client := p.1, toChild := s.toChild ++ p.2 }
    else none
  | .child i =>
    if s.childGets origin i then
      (s.solo.child.step origin i).map fun p =>
        { s with
          solo := ⟨p.1, p.2.foldl Effect.onDisk s.solo.disk,
            s.solo.opened || decide (Effect.create ∈ p.2)⟩
          toClient := s.toClient ++ p.2.filterMap Effect.sent }
    else none

def InData (s : Pair φ) : Prop := s.client.InData ∧ s.solo.child.InData

/-- What is compared: the client's window, what it counts as written and its end; the child's file,
counters and end; and what has been sent. -/
structure Agree (s t : Pair φ) : Prop where
  packets : t.client.packets = s.client.packets
  written : t.client.written = s.client.written
  clientEnd : ∀ e, t.client.pc = .done e ↔ s.client.pc = .done e
  disk : t.solo.disk = s.solo.disk
  expected : t.solo.child.expectedSequence = s.solo.child.expectedSequence
  read : t.solo.child.read = s.solo.child.read
  childEnd : ∀ e, t.solo.child.pc = .done e ↔ s.solo.child.pc = .done e
  toChild : t.toChild = s.toChild
  toClient : t.toClient = s.toClient

/-- A step of both runs: it must not fall between the ends of the child's two waits. -/
def Waits (s t : Pair φ) : PairEv → Prop
  | .child i => s.solo.child.SameWait t.solo.child i
  | .client _ => True

structure Same (s t : Pair φ) : Prop where
  client : s.client.Same t.client
  solo : s.solo.Same t.solo
  toChild : t.toChild = s.toChild
  toClient : t.toClient = s.toClient

theorem Same.agree {s t : Pair φ} (h : s.Same t) : s.Agree t := by
  obtain ⟨⟨-, b, r, hclient, -⟩, ⟨⟨-, b', pc, hchild, hpc⟩, hdisk, -⟩, hto, hfrom⟩ := h
  refine ⟨by rw [hclient], by rw [hclient], fun e => by rw [hclient], hdisk, by rw [hchild],
    by rw [hchild], fun e => ?_, hto, hfrom⟩
  rw [hchild]
  rcases hpc with rfl | ⟨t₀, t₁, h₀, rfl⟩
  · exact Iff.rfl
  · simp [h₀]

variable {fread wanted origin} {s s' t : Pair φ}

theorem step_client {i : ClientIn} (h : s.step fread wanted origin (.client i) = some s') :
    s.clientGets wanted i = true ∧ ∃ c out, s.client.step fread wanted i = some (c, out) ∧
      s' = { s with client := c, toChild := s.toChild ++ out } := by
  simp only [step] at h
  split_ifs at h with hgets
  obtain ⟨⟨c, out⟩, hc, rfl⟩ := Option.map_eq_some_iff.mp h
  exact ⟨hgets, c, out, hc, rfl⟩

theorem step_child {i : ChildIn} (h : s.step fread wanted origin (.child i) = some s') :
    s.childGets origin i = true ∧ ∃ c effs, s.solo.child.step origin i = some (c, effs) ∧
      s' = { s with
        solo := ⟨c, effs.foldl Effect.onDisk s.solo.disk,
          s.solo.opened || decide (Effect.create ∈ effs)⟩
        toClient := s.toClient ++ effs.filterMap Effect.sent } := by
  simp only [step] at h
  split_ifs at h with hgets
  obtain ⟨⟨c, effs⟩, hc, rfl⟩ := Option.map_eq_some_iff.mp h
  exact ⟨hgets, c, effs, hc, rfl⟩

/-- A client that has made a step of its own, with the same sends. -/
theorem Same.ofClient (h : Same s t) {i : ClientIn} (hgets : t.clientGets wanted i = true)
    {c d : Client φ} {out : List Bytes} (hd : t.client.step fread wanted i = some (d, out))
    (hsame : c.Same d) : ∃ t', t.step fread wanted origin (.client i) = some t' ∧
      Same { s with client := c, toChild := s.toChild ++ out } t' := by
  refine ⟨{ t with client := d, toChild := t.toChild ++ out }, ?_, hsame, h.solo,
    congrArg (· ++ out) h.toChild, h.toClient⟩
  rw [Pair.step, if_pos hgets, hd, Option.map_some]

/-- A child that has made a step of its own, with the same effects. -/
theorem Same.ofChild (h : Same s t) {i : ChildIn} (hgets : t.childGets origin i = true)
    {c d : Child} {effs : List Effect} (hd : t.solo.child.step origin i = some (d, effs))
    (hsame : c.Same d) : ∃ t', t.step fread wanted origin (.child i) = some t' ∧
      Same { s with
        solo := ⟨c, effs.foldl Effect.onDisk s.solo.disk,
          s.solo.opened || decide (Effect.create ∈ effs)⟩
        toClient := s.toClient ++ effs.filterMap Effect.sent } t' := by
  obtain ⟨-, hdisk, hopened⟩ := h.solo
  refine ⟨{ t with
      solo := ⟨d, effs.foldl Effect.onDisk t.solo.disk,
        t.solo.opened || decide (Effect.create ∈ effs)⟩
      toClient := t.toClient ++ effs.filterMap Effect.sent }, ?_, h.client, ⟨hsame, ?_, ?_⟩,
    h.toChild, congrArg (· ++ _) h.toClient⟩
  · rw [Pair.step, if_pos hgets, hd, Option.map_some]
  · rw [hdisk]
  · rw [hopened]

/-- **A step that both runs take.** -/
theorem Same.step (h : Same s t) {e : PairEv} (hw : Waits s t e)
    (hs : s.step fread wanted origin e = some s') :
    ∃ t', t.step fread wanted origin e = some t' ∧ Same s' t' := by
  cases e with
  | client i =>
    obtain ⟨hgets, c, out, hc, rfl⟩ := step_client hs
    obtain ⟨d, hd, hsame⟩ := h.client.step hc
    refine h.ofClient ?_ hd hsame
    cases i with
    | send sendto now => rfl
    | recv temp r now => rwa [clientGets, h.toClient]
  | child i =>
    obtain ⟨hgets, c, effs, hc, rfl⟩ := step_child hs
    obtain ⟨d, hd, hsame⟩ := h.solo.1.step hw hc
    refine h.ofChild ?_ hd hsame
    cases i with
    | poll now temp beyond r => rwa [childGets, h.toChild]
    | _ => rfl

end Pair

/-- A datagram received at time `0`. -/
def ChildIn.recv (src : Addr) (m : Bytes) : ChildIn := .poll 0 [] (fun _ => 0) (.got src m)

/-- A datagram the client receives at time `0`, and one the child does. -/
def PairEv.toClient (src : Addr) (m : Bytes) : PairEv := .client (.recv [] (.got src m) 0)
def PairEv.toChild (src : Addr) (m : Bytes) : PairEv := .child (.recv src m)

/-- The end of the transfer, with an `ACK` and two further datagrams of somebody else. -/
def disturbed : List (Machine.Item PairEv) :=
  [.instead [] [.toClient ⟨[1]⟩ (ackPacket 1)], .instead [] [.toChild ⟨[1]⟩ [9]],
    .common (.toChild ⟨[]⟩ (dataPacket [42] 0)), .common (.child (.fwrite 1 0)),
    .common (.toClient ⟨[]⟩ (ackPacket 2)), .common (.client (.recv [] (.fail .again) 0)),
    .common (.client (.send (fun _ => true) 0)),
    .instead [.client (.recv [] (.fail .again) 0)] [.toClient ⟨[1]⟩ [9]],
    .common (.toChild ⟨[]⟩ Client.finPacket), .common (.child (.send true false 0)),
    .common (.client (.send (fun _ => true) 0)), .common (.toClient ⟨[]⟩ finAckPacket)]

end FortyTwoHundred.Ftp
