import FortyTwoHundred.Ftp.Window
import FortyTwoHundred.Ftp.Server

/-!
# Closing — receives that fail while a connection is closed

The closing loops of client and child look at the first byte of their buffer after each receive.
`read_only_from` copies the whole of its fresh block to that buffer, also when nothing has been
received; the client does not look at the result of the receive, and the child keeps it in a
`size_t`, where `-1` is greater than `0`.  So old contents of memory can end the loops.
`closing_iff` says in which runs they do not.
-/

namespace FortyTwoHundred.Ftp

/-- A datagram with this command has been received. -/
def Recv.hasCmd (cmd : Byte) : Recv → Bool
  | .got _ d => d.head? == some cmd
  | .fail _ => false

/-- What is asked of a receive: a failure leaves the buffer as it is, and the loop is left only if
the datagram waited for has been seen. -/
structure ReactsToReceived (r : Recv) (before after : Bytes) (leaves seen : Prop) : Prop where
  keeps : (∃ e, r = .fail e) → after = before
  leaves : leaves → seen

/-- The fresh block of a receive that fails holds what the buffer does, and not the command waited
for. -/
def Recv.FailsHarmlessly (cmd : Byte) (before temp : Bytes) (r : Recv) : Prop :=
  (∃ e, r = .fail e) → temp = before ∧ command before ≠ cmd

/-- A datagram with a byte in it has a result other than `0`. -/
theorem Recv.ret_got_cons (src : Addr) (b : Byte) (d : Bytes) :
    (Recv.got src (b :: d)).ret ≠ 0 := by
  show (((b :: d).take packetSize).length : ℤ) ≠ 0
  rw [List.length_take, List.length_cons, packetSize]
  omega

/-- **One receive**: `empty` says whether the loop is also left on a datagram without any byte. -/
theorem reactsToReceived_iff (cmd : Byte) (before temp : Bytes) (r : Recv) (empty : Prop) :
    ReactsToReceived r before (overlay r.stored temp)
    ((r.ret = 0 → empty) ∧ command (overlay r.stored temp) = cmd)
        (r.hasCmd cmd = true) ↔
      r.FailsHarmlessly cmd before temp ∧ (r.ret = 0 → empty → command temp ≠ cmd) := by
  cases r with
  | fail e =>
    have hret : (Recv.fail e).ret ≠ 0 := by
      show (-1 : ℤ) ≠ 0
      omega
    constructor
    · intro h
      have hkeep : temp = before := h.keeps ⟨e, rfl⟩
      refine ⟨fun _ => ⟨hkeep, fun hcmd => ?_⟩, fun h0 => absurd h0 hret⟩
      have := h.leaves ⟨fun h0 => absurd h0 hret, show command temp = cmd by rw [hkeep, hcmd]⟩
      cases this
    · rintro ⟨h, -⟩
      obtain ⟨rfl, hcmd⟩ := h ⟨e, rfl⟩
      exact ⟨fun _ => rfl, fun hl => absurd hl.2 hcmd⟩
  | got src d =>
    have hgot : ¬ ∃ e, Recv.got src d = .fail e := fun ⟨_, h⟩ => by cases h
    cases d with
    | nil =>
      constructor
      · intro h
        refine ⟨fun hf => absurd hf hgot, fun _ he hcmd => ?_⟩
        have := h.leaves ⟨fun _ => he, hcmd⟩
        cases this
      · rintro ⟨-, h⟩
        exact ⟨fun hf => absurd hf hgot, fun hl => absurd hl.2 (h rfl (hl.1 rfl))⟩
    | cons b d =>
      have hret := Recv.ret_got_cons src b d
      refine iff_of_true ⟨fun hf => absurd hf hgot, fun hl => ?_⟩
        ⟨fun hf => absurd hf hgot, fun h0 => absurd h0 hret⟩
      have hcmd : b = cmd := hl.2
      rw [hcmd]
      exact beq_self_eq_true (some cmd)

theorem Recv.command_of_hasCmd {cmd : Byte} {r : Recv} (h : r.hasCmd cmd = true) (temp : Bytes) :
    r.ret ≠ 0 ∧ command (overlay r.stored temp) = cmd := by
  cases r with
  | fail e => cases h
  | got src d =>
    cases d with
    | nil => cases h
    | cons b d => exact ⟨Recv.ret_got_cons src b d, Option.some.inj (eq_of_beq h)⟩

/-! ## The client -/

namespace Client

variable {φ : Type} {fread : φ → ℕ → Bytes × φ} {wanted : Addr}

/-- The event is a `FINACK`. -/
def finAcked : ClientIn → Bool
  | .recv _ r _ => r.hasCmd cmdFinAck
  | _ => false

/-- The client with a flag for a `FINACK` received. -/
abbrev closing (fread : φ → ℕ → Bytes × φ) (wanted : Addr) :
    Bool × Client φ → ClientIn → Option (Bool × Client φ) :=
  Machine.watched finAcked (next fread wanted)

/-- What is asked of a step of the closing loop. -/
def Closes (fread : φ → ℕ → Bytes × φ) (wanted : Addr) (s : Bool × Client φ) (i : ClientIn) :
    Prop :=
  ∀ temp r now t, i = .recv temp r now → s.2.pc = .finRecv → closing fread wanted s i = some t →
    ReactsToReceived r s.2.buffer t.2.buffer (∃ e, t.2.pc = .done e) (t.1 = true)

/-- The old contents of memory do no harm; also on an empty datagram they must not begin with a
`FINACK`. -/
def ReadsHarmlessly (s : Bool × Client φ) (i : ClientIn) : Prop :=
  ∀ temp r now, i = .recv temp r now → s.2.pc = .finRecv →
    r.FailsHarmlessly cmdFinAck s.2.buffer temp ∧ (r.ret = 0 → command temp ≠ cmdFinAck)

theorem handleFin_buffer (rr : ReadResult) (c : Client φ) :
    (handleFin rr c).buffer = rr.buffer := by
  rw [handleFin]
  dsimp only
  split_ifs <;> rfl

theorem handleFin_done_iff (rr : ReadResult) {c : Client φ} (hpc : c.pc = .finRecv) :
    (∃ e, (handleFin rr c).pc = .done e) ↔ command rr.buffer = cmdFinAck := by
  rw [handleFin]
  dsimp only
  split_ifs with h1 h2
  · refine iff_of_false ?_ fun h => ?_
    · rintro ⟨e, he⟩
      cases hpc.symm.trans he
    · have := h1.2.symm.trans h
      revert this
      decide
  · exact iff_of_true ⟨_, rfl⟩ h2
  · refine iff_of_false ?_ h2
    rintro ⟨e, he⟩
    cases he

/-- In the closing loop, until a `FINACK` arrives. -/
def InClosing (s : Bool × Client φ) :
    Prop := s.2.left ∧ (s.1 = true → s.2.pc = .done (.returned .ok))

theorem next_finRecv_eq {c d : Client φ} {temp : Bytes} {r : Recv} {now : ℤ} (hpc : c.pc = .finRecv)
    (hs : next fread wanted c (.recv temp r now) = some d) :
    d = handleFin ⟨r.ret, r.again, overlay r.stored temp⟩ c := by
  simp only [next, step, hpc, Option.map_some, Option.some.injEq] at hs
  exact hs.symm

theorem next_of_done {c : Client φ} {e : Ending} (h : c.pc = .done e) (i : ClientIn) :
    next fread wanted c i = none := by
  cases i <;> simp only [next, step, h, Option.map_none]

/-- An open loop has seen no `FINACK`. -/
theorem InClosing.not_seen {s : Bool × Client φ} (h : InClosing s)
    (hpc : s.2.pc ≠ .done (.returned .ok)) : s.1 = false := by
  by_contra hseen
  exact hpc (h.2 (Bool.eq_true_of_not_eq_false hseen))

theorem InClosing.flag {s t : Bool × Client φ} {i : ClientIn} (h : InClosing s)
    (hs : closing fread wanted s i = some t) : t.1 = finAcked i := by
  obtain ⟨hnext, hflag⟩ := Machine.watched_eq_some.mp hs
  have hopen : s.1 = false := h.not_seen fun hdone => by
    rw [next_of_done hdone] at hnext
    cases hnext
  rwa [hopen, Bool.false_or] at hflag

theorem InClosing.step {s t : Bool × Client φ} {i : ClientIn} (h : InClosing s)
    (hs : closing fread wanted s i = some t) : InClosing t := by
  have hflag := h.flag hs
  obtain ⟨hnext, -⟩ := Machine.watched_eq_some.mp hs
  obtain ⟨⟨d, out⟩, hstep, hd⟩ := Option.map_eq_some_iff.mp hnext
  have hleft : t.2.left := hd ▸ left_of_step h.1 hstep
  refine ⟨hleft, fun hseen => ?_⟩
  rw [hflag] at hseen
  cases i with
  | send sendto now => cases hseen
  | recv temp r now =>
    rcases h.1 with hpc | hpc | hpc
    · simp [next, Client.step, hpc] at hnext
    · have hcmd := (Recv.command_of_hasCmd hseen temp).2
      have heq := next_finRecv_eq hpc hnext
      obtain ⟨e, he⟩ := (handleFin_done_iff ⟨r.ret, r.again, overlay r.stored temp⟩ hpc).mpr hcmd
      rw [← heq] at he
      rcases hleft with hl | hl | hl
      · cases hl.symm.trans he
      · cases hl.symm.trans he
      · exact hl
    · rw [next_of_done hpc] at hnext
      cases hnext

/-- **One step** of the client's closing loop. -/
theorem closes_iff {s : Bool × Client φ} (h : InClosing s) (i : ClientIn) :
    Closes fread wanted s i ↔ ReadsHarmlessly s i := by
  have key : ∀ temp r now, s.2.pc = .finRecv →
      ((∀ t, closing fread wanted s (.recv temp r now) = some t →
          ReactsToReceived r s.2.buffer t.2.buffer (∃ e, t.2.pc = .done e) (t.1 = true)) ↔
        r.FailsHarmlessly cmdFinAck s.2.buffer temp ∧ (r.ret = 0 → command temp ≠ cmdFinAck)) := by
    intro temp r now hpc
    have hstep : closing fread wanted s (.recv temp r now) =
        some (r.hasCmd cmdFinAck, handleFin ⟨r.ret, r.again, overlay r.stored temp⟩ s.2) := by
      have hopen : s.1 = false := h.not_seen (by rw [hpc]; exact ClientPc.noConfusion)
      refine Machine.watched_eq_some.mpr ⟨?_, ?_⟩
      · simp only [next, Client.step, hpc, Option.map_some]
        rfl
      · rw [hopen, Bool.false_or]
        rfl
    have hleave : (∃ e, (handleFin ⟨r.ret, r.again, overlay r.stored temp⟩ s.2).pc = .done e) ↔
        (r.ret = 0 → True) ∧ command (overlay r.stored temp) = cmdFinAck :=
      (handleFin_done_iff _ hpc).trans (and_iff_right fun _ => trivial).symm
    have hone := reactsToReceived_iff cmdFinAck s.2.buffer temp r True
    rw [← hleave] at hone
    simp only [true_imp_iff] at hone
    rw [hstep, ← hone]
    constructor
    · intro h
      have := h _ rfl
      rwa [handleFin_buffer] at this
    · rintro h t ht
      obtain rfl := Option.some.inj ht
      rwa [handleFin_buffer]
  constructor
  · rintro h temp r now rfl hpc
    exact (key temp r now hpc).mp fun t ht => h temp r now t rfl hpc ht
  · rintro h temp r now t rfl hpc ht
    exact (key temp r now hpc).mpr (h temp r now rfl hpc) t ht

end Client

/-! ## The server child -/

namespace Solo

variable {origin : Addr}

/-- The event is an `ACK`. -/
def acked : ChildIn → Bool
  | .poll _ _ _ r => r.hasCmd cmdAck
  | _ => false

/-- The child with a flag for an `ACK` received. -/
abbrev closing (origin : Addr) : Bool × Solo → ChildIn → Option (Bool × Solo) :=
    Machine.watched acked (next origin)

/-- What is asked of a step of the closing loop. -/
def Closes (origin : Addr) (s : Bool × Solo) (i : ChildIn) : Prop :=
  ∀ now temp beyond r t0 t, i = .poll now temp beyond r → s.2.child.pc = .finackRecv t0 →
    closing origin s i = some t →
    ReactsToReceived r s.2.child.buffer t.2.child.buffer (∃ e, t.2.child.pc = .done e) (t.1 = true)

/-- The old contents of memory do no harm. -/
def ReadsHarmlessly (s : Bool × Solo) (i : ChildIn) : Prop :=
  ∀ now temp beyond r t0, i = .poll now temp beyond r → s.2.child.pc = .finackRecv t0 →
    r.FailsHarmlessly cmdAck s.2.child.buffer temp

/-- In the closing loop, until an `ACK` arrives. -/
structure InClosing (s : Bool × Solo) : Prop where
  pc : (∃ t, s.2.child.pc = .finackTop t) ∨ (∃ t, s.2.child.pc = .finackRecv t) ∨
    s.2.child.pc = .done (.returned .ok)
  seen : s.1 = true → s.2.child.pc = .done (.returned .ok)

theorem next_finackRecv {s : Solo} {t now : ℤ} {temp : Bytes} {beyond : ℕ → Byte} {r : Recv}
    (h : s.child.pc = .finackRecv t) :
    s.next origin (.poll now temp beyond r) =
      some ⟨s.child.finackStep origin t temp r, s.disk,
        s.opened || decide (Effect.create ∈ ([] : List Effect))⟩ := by
  simp only [next, Child.step, h, Option.map_some, List.foldl_nil]

theorem finackStep_buffer (t : ℤ) (temp : Bytes) (r : Recv) (c : Child) :
    (c.finackStep origin t temp r).buffer = overlay r.stored temp := by
  rw [Child.finackStep_eq]
  split_ifs <;> rfl

theorem finackStep_done_iff (origin : Addr) (t : ℤ) (temp : Bytes) (r : Recv) (c : Child) :
    (∃ e, (c.finackStep origin t temp r).pc = .done e) ↔
      r.ret ≠ 0 ∧ command (overlay r.stored temp) = cmdAck := by
  rw [Child.finackStep_eq]
  split_ifs with h
  · exact iff_of_true ⟨_, rfl⟩ h
  · refine iff_of_false ?_ h
    rintro ⟨e, he⟩
    cases he

/-- An open loop has seen no `ACK`. -/
theorem InClosing.not_seen {s : Bool × Solo} (h : InClosing s)
    (hpc : s.2.child.pc ≠ .done (.returned .ok)) : s.1 = false := by
  by_contra hseen
  exact hpc (h.seen (Bool.eq_true_of_not_eq_false hseen))

theorem InClosing.step {s t : Bool × Solo} {i : ChildIn} (h : InClosing s)
    (hs : closing origin s i = some t) : InClosing t := by
  obtain ⟨hnext, hflag⟩ := Machine.watched_eq_some.mp hs
  obtain ⟨⟨d, effs⟩, hstep, ht⟩ := Option.map_eq_some_iff.mp hnext
  have hchild : t.2.child = d := by rw [← ht]
  have hpc := h.pc
  cases Child.trans_of_step hstep with
  | @finack t0 ok again now hp _ =>
    have hs1 : s.1 = false := h.not_seen (by rw [hp]; exact ChildPc.noConfusion)
    refine ⟨Or.inr (Or.inl ⟨t0, by rw [hchild]⟩), fun hseen => ?_⟩
    rw [hflag, hs1] at hseen
    cases hseen
  | finackTimeout hp _ =>
    exact ⟨Or.inr (Or.inr (by rw [hchild]; rfl)), fun _ => by rw [hchild]; rfl⟩
  | @finackRecv t0 now temp beyond r hp =>
    have hs1 : s.1 = false := h.not_seen (by rw [hp]; exact ChildPc.noConfusion)
    rw [hs1, Bool.false_or] at hflag
    rcases (Child.finackStep_frame origin t0 temp r s.2.child).1 with hdone | htop
    · exact ⟨Or.inr (Or.inr (hchild ▸ hdone)), fun _ => hchild ▸ hdone⟩
    · refine ⟨Or.inl ⟨t0, hchild ▸ htop⟩, fun hseen => ?_⟩
      rw [hflag] at hseen
      obtain ⟨e, he⟩ := (finackStep_done_iff origin t0 temp r s.2.child).mpr
        (Recv.command_of_hasCmd hseen temp)
      cases htop.symm.trans he
  | _ => simp [*] at hpc

/-- **One step** of the child's closing loop. -/
theorem closes_iff {s : Bool × Solo} (h : InClosing s) (i : ChildIn) : Closes origin s i ↔
    ReadsHarmlessly s i := by
  have key : ∀ now temp beyond r t0, s.2.child.pc = .finackRecv t0 →
      ((∀ t, closing origin s (.poll now temp beyond r) = some t →
          ReactsToReceived r s.2.child.buffer t.2.child.buffer (∃ e, t.2.child.pc = .done e)
          (t.1 = true)) ↔
        r.FailsHarmlessly cmdAck s.2.child.buffer temp) := by
    intro now temp beyond r t0 hpc
    have hs1 : s.1 = false := h.not_seen (by rw [hpc]; exact ChildPc.noConfusion)
    have hstep : ∀ t, closing origin s (.poll now temp beyond r) = some t →
        t.2.child = s.2.child.finackStep origin t0 temp r ∧ t.1 = r.hasCmd cmdAck := by
      intro t ht
      obtain ⟨hnext, hflag⟩ := Machine.watched_eq_some.mp ht
      rw [next_finackRecv hpc] at hnext
      rw [hs1, Bool.false_or] at hflag
      exact ⟨by rw [← Option.some.inj hnext], hflag⟩
    have hex : ∃ t, closing origin s (.poll now temp beyond r) = some t :=
      ⟨(_, _), Machine.watched_eq_some.mpr ⟨next_finackRecv hpc, rfl⟩⟩
    have hone := reactsToReceived_iff cmdAck s.2.child.buffer temp r False
    rw [and_iff_left fun _ h => h.elim] at hone
    rw [← hone]
    have hleave : (∃ e, (s.2.child.finackStep origin t0 temp r).pc = .done e) ↔
        (r.ret = 0 → False) ∧ command (overlay r.stored temp) = cmdAck :=
        finackStep_done_iff origin t0 temp r _
    rw [← hleave]
    constructor
    · intro h
      obtain ⟨t, ht⟩ := hex
      have := h t ht
      rwa [(hstep t ht).1, (hstep t ht).2, finackStep_buffer] at this
    · intro h t ht
      rwa [(hstep t ht).1, (hstep t ht).2, finackStep_buffer]
  constructor
  · rintro h now temp beyond r t0 rfl hpc
    exact (key now temp beyond r t0 hpc).mp fun t ht => h now temp beyond r t0 t rfl hpc ht
  · rintro h now temp beyond r t0 t rfl hpc ht
    exact (key now temp beyond r t0 hpc).mpr (h now temp beyond r t0 rfl hpc) t ht

end Solo

/-- **Closing a connection**: in a run from the start of the closing loops, receives that fail leave
the buffer as it is, the client leaves its loop by a receive only after a `FINACK` and the child
only after an `ACK`, if and only if the fresh block of every receive that fails holds what the
buffer does and no such command, and the one of the client's receive of an empty datagram does not
begin with a `FINACK`. -/
theorem closing_iff {φ : Type} (fread : φ → ℕ → Bytes × φ) (wanted origin : Addr)
    (c : Client φ) (s : Solo) (is : List ClientIn) (js : List ChildIn) (hc : c.pc = .finTop)
    (hs : ∃ t, s.child.pc = .finackTop t) :
    (Machine.Meets (Client.closing fread wanted) (Client.Closes fread wanted) (false, c) is ∧
        Machine.Meets (Solo.closing origin) (Solo.Closes origin) (false, s) js) ↔
      Machine.Meets (Client.closing fread wanted) Client.ReadsHarmlessly (false, c) is ∧
        Machine.Meets (Solo.closing origin) Solo.ReadsHarmlessly (false, s) js := by
  have hclient : Client.InClosing (false, c) := ⟨Or.inl hc, fun h => by cases h⟩
  have hchild : Solo.InClosing (false, s) := ⟨Or.inl hs, fun h => by cases h⟩
  refine and_congr ?_ ?_
  · exact Machine.meets_congr (J := Client.InClosing) (fun _ _ _ h hs => h.step hs)
      (fun _ i h => Client.closes_iff h i) hclient is
  · exact Machine.meets_congr (J := Solo.InClosing) (fun _ _ _ h hs => h.step hs)
      (fun _ i h => Solo.closes_iff h i) hchild js

/-- A client and a child at the start of the closing loops. -/
def closingClient : Client Bytes := { Client.init [] 0 [97] 0 with pc := .finTop }

def closingChild : Solo := ⟨{ Child.init [] with pc := .finackTop 0 }, none, false⟩

/-- A receive that fails on a block that holds what the buffer does, and then the command waited
for. -/
def clientCloses : List ClientIn :=
  [.send (fun _ => true) 0, .recv closingClient.buffer (.fail .again) 0, .send (fun _ => true) 0,
    .recv [] (.got ⟨[]⟩ finAckPacket) 0]

def childCloses : List ChildIn :=
  [.send true false 0, .poll 0 closingChild.child.buffer (fun _ => 0) (.fail .again),
    .send true false 0,
    .poll 0 [] (fun _ => 0) (.got ⟨[]⟩ (ackPacket 0))]

theorem closing_finAck :
    (∃ t, Machine.exec (Client.closing readFile ⟨[]⟩) (false, closingClient) clientCloses = some t ∧
      t.2.pc = .done (.returned .ok)) ∧
    (∃ t, Machine.exec (Solo.closing ⟨[]⟩) (false, closingChild) childCloses = some t ∧
      t.2.child.pc = .done (.returned .ok)) ∧
    Machine.Meets (Client.closing readFile ⟨[]⟩) (Client.Closes readFile ⟨[]⟩)
    (false, closingClient)
      clientCloses ∧
    Machine.Meets (Solo.closing ⟨[]⟩) (Solo.Closes ⟨[]⟩) (false, closingChild) childCloses := by
  refine ⟨⟨_, rfl, rfl⟩, ⟨_, rfl, rfl⟩, (closing_iff readFile ⟨[]⟩ ⟨[]⟩ closingClient closingChild
    clientCloses childCloses rfl ⟨0, rfl⟩).mpr ⟨?_, ?_⟩⟩
  · refine .cons rfl (fun _ _ _ h => by cases h)
      (.cons rfl ?_ (.cons rfl (fun _ _ _ h => by cases h)
      (.cons rfl ?_ trivial)))
    · rintro temp r now he -
      cases he
      exact ⟨fun _ => ⟨rfl, by decide⟩, fun h => by cases h⟩
    · rintro temp r now he -
      cases he
      exact ⟨fun ⟨_, h⟩ => (by cases h), fun h => absurd h (Recv.ret_got_cons _ _ _)⟩
  · refine .cons rfl (fun _ _ _ _ _ h => by cases h) (.cons rfl ?_ (.cons rfl
      (fun _ _ _ _ _ h => by cases h) (.cons rfl ?_ trivial)))
    · rintro now temp beyond r t0 he -
      cases he
      exact fun _ => ⟨rfl, by decide⟩
    · rintro now temp beyond r t0 he -
      cases he
      exact fun ⟨_, h⟩ => by cases h

/-- The contents of a fresh block. -/
def oldBlock (first : Byte) : Bytes := first :: List.replicate (packetSize - 1) 0

/-- Nothing is received, but the fresh block begins with a `FINACK` for the client, and with an
`ACK` for the child: both leave their loops at once, and their buffers have changed. -/
theorem closed_by_old_memory :
    (∃ t, Machine.exec (Client.closing readFile ⟨[]⟩) (false, closingClient)
        [.send (fun _ => true) 0, .recv (oldBlock cmdFinAck) (.fail .again) 0] = some t ∧
      t.1 = false ∧ t.2.pc = .done (.returned .ok) ∧ t.2.buffer = oldBlock cmdFinAck ∧
      closingClient.buffer ≠ oldBlock cmdFinAck) ∧
    ∃ t, Machine.exec (Solo.closing ⟨[]⟩) (false, closingChild)
        [.send true false 0, .poll 0 (oldBlock cmdAck) (fun _ => 0) (.fail .again)] = some t ∧
      t.1 = false ∧ t.2.child.pc = .done (.returned .ok) ∧ t.2.child.buffer = oldBlock cmdAck ∧
      closingChild.child.buffer ≠ oldBlock cmdAck := by
  refine ⟨⟨_, rfl, rfl, rfl, rfl, ?_⟩, ⟨_, rfl, rfl, rfl, rfl, ?_⟩⟩
  · intro h
    have := congrArg List.head? h
    revert this
    decide
  · intro h
    have := congrArg List.head? h
    revert this
    decide

end FortyTwoHundred.Ftp
