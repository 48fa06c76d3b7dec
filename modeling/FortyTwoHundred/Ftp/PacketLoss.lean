import FortyTwoHundred.Ftp.Recovery

/-!
# PacketLoss — the build with `PL_DENOMINATOR`

Compiled with `PL_DENOMINATOR`, `send_packet` reads a byte from `/dev/urandom` for every datagram
and loses the datagram, with the result of a `sendto` that succeeded, unless the byte is a multiple
of the denominator.  The machine of this module is that build over queues that lose nothing.  Every
state it comes to, the ordinary build comes to over queues that lose datagrams (`pl_build`); so the
losses of the build test what the protocol is meant to stand, and whatever the dice were, the
transfer can still end well.
-/

namespace FortyTwoHundred.Ftp

/-- `send_packet`: the datagrams handed to `sendto`. -/
def plSendPacket (denominator die : ℕ) (packet : Bytes) : List Bytes :=
  if die % denominator ≠ 0 then [] else [packet]

/-- What is sent of a burst; `dice` are the bytes read for it. -/
def plSent (denominator : ℕ) (dice : ℕ → ℕ) : List Bytes → List Bytes
  | [] => []
  | d :: ds => plSendPacket denominator (dice 0) d ++ plSent denominator (fun i => dice (i + 1)) ds

theorem plSent_sublist (denominator : ℕ) (dice : ℕ → ℕ) (ds : List Bytes) :
    (plSent denominator dice ds).Sublist ds := by
  induction ds generalizing dice with
  | nil => exact List.Sublist.refl []
  | cons d ds ih =>
    rw [plSent, plSendPacket]
    split_ifs
    · exact (ih _).cons d
    · exact (ih _).cons_cons d

/-- Dice that lose nothing. -/
theorem plSent_zero (denominator : ℕ) (ds : List Bytes) :
    plSent denominator (fun _ => 0) ds = ds := by
  induction ds with
  | nil => rfl
  | cons d ds ih =>
    rw [plSent, plSendPacket, if_neg (by simp), ih]
    rfl

inductive PlEv
  | clientSend (now : ℤ) (dice : ℕ → ℕ)
  | clientRecv (temp : Bytes) (r : Recv) (now : ℤ)
  | child (i : ChildIn) (dice : ℕ → ℕ)

def PlEv.At (now : ℤ) : PlEv → Prop
  | .clientSend n _ | .clientRecv _ _ n => n = now
  | .child i _ => i.clock = now

def PlEv.isSend : PlEv → Bool
  | .clientSend _ _ => true
  | _ => false

/-- The event with dice that lose nothing. -/
def LossyEv.spared : LossyEv → PlEv
  | .clientSend now => .clientSend now fun _ => 0
  | .clientRecv temp r now => .clientRecv temp r now
  | .child i => .child i fun _ => 0
  | .loseToServer _ | .loseToClient _ => .clientSend 0 fun _ => 0

namespace Lossy

/-- A step of the build over queues that lose nothing. -/
def plStep (denominator : ℕ) (wanted origin : Addr) (s : Lossy) : PlEv → Option Lossy
  | .clientSend now dice =>
    (s.client.step readFile wanted (.send (fun _ => true) now)).map fun p =>
      { s with client := p.1, toServer := s.toServer ++ plSent denominator dice p.2 }
  | .clientRecv temp r now =>
    (r.take s.toClient).bind fun q =>
      (s.client.step readFile wanted (.recv temp r now)).map fun p =>
        { s with client := p.1, toClient := q }
  | .child i dice =>
    (s.served i).bind fun q =>
      (s.child.atomic origin i).map fun p =>
        { s with
          child := p.1
          disk := p.2.foldl Effect.onDisk s.disk
          output := s.output ++ p.2.flatMap Effect.appended
          toServer := q
          toClient := s.toClient ++ plSent denominator dice (p.2.filterMap Effect.sent) }

section Steps

variable {U : Upload} {s t : Lossy} {wanted origin : Addr} {denominator : ℕ}

/-- One queue of the state, and the event that loses a datagram of it. -/
theorem exec_lose (wanted origin : Addr) (queue : List Bytes → Lossy) (lose : ℕ → LossyEv)
    (hlose : ∀ l k, step wanted origin (queue l) (lose k) = some (queue (l.eraseIdx k)))
    {ds q : List Bytes} (h : q.Sublist ds) (front : List Bytes) : ∃ ks : List ℕ,
    Machine.exec (step wanted origin) (queue (front ++ ds)) (ks.map lose) =
      some (queue (front ++ q)) := by
  induction h generalizing front with
  | slnil => exact ⟨[], rfl⟩
  | @cons q ds d _ ih =>
    obtain ⟨ks, hks⟩ := ih front
    refine ⟨front.length :: ks, Machine.exec_cons_some.mpr ⟨queue (front ++ ds), ?_, hks⟩⟩
    rw [hlose, List.eraseIdx_append_of_length_le le_rfl, Nat.sub_self, List.eraseIdx_cons_zero]
  | @cons_cons q ds d _ ih =>
    obtain ⟨ks, hks⟩ := ih (front ++ [d])
    exact ⟨ks, by simpa only [List.append_assoc, List.singleton_append] using hks⟩

/-- **A step of the build** is the step of the ordinary one, after which datagrams are lost. -/
theorem exec_of_plStep {e : PlEv} (hs : s.plStep denominator wanted origin e = some t) :
    ∃ es, Machine.exec (step wanted origin) s es = some t := by
  cases e with
  | clientSend now dice =>
    obtain ⟨p, hp, rfl⟩ := Option.map_eq_some_iff.mp hs
    obtain ⟨ks, hks⟩ := exec_lose wanted origin (fun l => { s with client := p.1, toServer := l })
      .loseToServer
      (fun _ _ => rfl) (plSent_sublist denominator dice p.2) s.toServer
    refine ⟨.clientSend now :: ks.map .loseToServer, Machine.exec_cons_some.mpr ⟨_, ?_, hks⟩⟩
    rw [Lossy.step, hp, Option.map_some]
  | clientRecv temp r now =>
    exact ⟨[.clientRecv temp r now], Machine.exec_cons_some.mpr ⟨t, hs, rfl⟩⟩
  | child i dice =>
    obtain ⟨q, hq, hs⟩ := Option.bind_eq_some_iff.mp hs
    obtain ⟨p, hp, rfl⟩ := Option.map_eq_some_iff.mp hs
    obtain ⟨ks, hks⟩ := exec_lose wanted origin
      (fun l => { s with
        child := p.1
        disk := p.2.foldl Effect.onDisk s.disk
        output := s.output ++ p.2.flatMap Effect.appended
        toServer := q
        toClient := l })
      .loseToClient (fun _ _ => rfl) (plSent_sublist denominator dice (p.2.filterMap Effect.sent))
        s.toClient
    refine ⟨.child i :: ks.map .loseToClient, Machine.exec_cons_some.mpr ⟨_, ?_, hks⟩⟩
    rw [Lossy.step, hq, Option.bind_some, hp, Option.map_some]

theorem exec_of_pl {s₀ : Lossy} {es : List PlEv}
    (h : Machine.exec (plStep denominator wanted origin) s₀ es = some s) :
    ∃ fs, Machine.exec (step wanted origin) s₀ fs = some s := by
  refine Machine.exec_invariant (I := fun s => ∃ fs, Machine.exec (step wanted origin) s₀ fs =
    some s) ?_ ⟨[], rfl⟩ h
  rintro u e v ⟨fs, hu⟩ hs
  obtain ⟨gs, hv⟩ := exec_of_plStep hs
  exact ⟨fs ++ gs, Machine.exec_append.mpr ⟨u, hu, hv⟩⟩

theorem plStep_spared {now : ℤ} {e : LossyEv} (he : e.At now)
    (hs : s.step wanted origin e = some t) :
    s.plStep denominator wanted origin e.spared = some t := by
  cases e with
  | clientSend n =>
    simp only [LossyEv.spared, plStep, plSent_zero]
    exact hs
  | clientRecv temp r n => exact hs
  | child i =>
    simp only [LossyEv.spared, plStep, plSent_zero]
    exact hs
  | loseToServer k => cases he
  | loseToClient k => cases he

end Steps

/-- **The build with `PL_DENOMINATOR`.**  For every denominator and all dice: the build over queues
that lose nothing comes to states only that the ordinary build comes to over queues that lose
datagrams.  So the bytes written by the child are a beginning of the file, and all of it where the
child has returned `0`; and from every state in which nobody has given up, there are dice with
which the child gets the whole file and the `FIN` while the clock stands still. -/
theorem pl_build (U : Upload) (denominator : ℕ) (wanted origin : Addr) (s₀ s : Lossy)
    (es : List PlEv) (h₀ : Start U s₀)
    (h : Machine.exec (plStep denominator wanted origin) s₀ es = some s) :
    (∃ fs, Machine.exec (step wanted origin) s₀ fs = some s) ∧ s.output <+: U.content ∧
    (s.child.pc = .done (.returned .ok) → s.disk = some U.content) ∧
    ∀ now, Alive now s → Machine.CanReach (plStep denominator wanted origin)
    (PlEv.At now) PlEv.isSend (rounds U s + 2) s
      fun t => t.client.left ∧ t.child.Closing ∧ t.disk = some U.content := by
  obtain ⟨fs, hfs⟩ := exec_of_pl h
  obtain ⟨xs, ys, hinv⟩ : ∃ xs ys, Agree U xs ys s := by
    refine Machine.exec_invariant (I := fun s => ∃ xs ys, Agree U xs ys s) ?_ ?_ hfs
    · rintro u e v ⟨xs, ys, hu⟩ hs
      exact hu.step hs
    · obtain ⟨ys, hs⟩ := Agree.start h₀
      exact ⟨[], ys, hs⟩
  refine ⟨⟨fs, hfs⟩, ?_, fun hdone => hinv.disk (Or.inr (Or.inr hdone)), fun now ha => ?_⟩
  · rw [hinv.stream.written]
    exact List.take_prefix _ _
  · refine ((hinv.delivers ha).map LossyEv.spared (fun s e t he hs => plStep_spared he hs) ?_
      ?_).mono le_rfl ?_
    · intro e he
      cases e <;> first | exact he | cases he
    · intro e he
      cases e <;> first | rfl | cases he
    · rintro t ⟨he, hc, xs', ys', ht⟩
      exact ⟨he.left, hc, ht.disk hc⟩

/-- Half of the bytes lose a datagram, and the dice for the first window all do. -/
theorem pl_build_firstWindow : ∃ s, Start Session.oneByte sampleStart ∧
    Machine.exec (plStep 2 ⟨[]⟩ ⟨[]⟩) sampleStart [.clientSend 0 fun _ => 1] = some s ∧
    s.toServer = [] ∧ Alive 2 s ∧
    Machine.CanReach (plStep 2 ⟨[]⟩ ⟨[]⟩) (PlEv.At 2) PlEv.isSend 3 s fun t =>
      t.disk = some [42] := by
  obtain ⟨s, hs, hq, hpc, hl, hchild⟩ : ∃ s,
      Machine.exec (plStep 2 ⟨[]⟩ ⟨[]⟩) sampleStart [.clientSend 0 fun _ => 1] = some s ∧
      s.toServer = [] ∧
      s.client.pc = .drain ∧ s.client.lastACK = 0 ∧ s.child.pc = .poll 0 :=
        ⟨_, rfl, rfl, rfl, rfl, rfl⟩
  have ha := alive_waiting hpc hl hchild
  obtain ⟨-, -, -, hreach⟩ := pl_build Session.oneByte 2 ⟨[]⟩
    ⟨[]⟩ sampleStart s _ start_sampleStart hs
  exact ⟨s, start_sampleStart, hs, hq, ha, (hreach 2 ha).mono (rounds_oneByte_le s)
    fun t ht => ht.2.2⟩

end Lossy

end FortyTwoHundred.Ftp
