import FortyTwoHundred.Ftp.Server

/-!
# Intact — what a server child writes, and what it received

A `DATA` packet says in its header how long its payload is, and the child writes that many bytes of
its buffer to the file.  The number of bytes `recvfrom` stored is overwritten before it is looked
at (`actual = GETLEN(buffer)`), so nothing ties the two together: a length field that promises more
than the datagram has makes the child write old contents of the buffer, and above `payloadSize`
what lies after it in memory.

`Watched` adds to the child the bytes of the last datagram; `appended_bytes_received_iff` says that
all bytes written come from the datagram just received exactly if no accepted packet promises more
than it brings.
-/

namespace FortyTwoHundred.Ftp

/-- A child and what its last `recvfrom` stored. -/
structure Watched where
  child : Child
  received : Bytes

namespace Watched

def init (datagram : Bytes) : Watched := ⟨Child.init datagram, datagram.take packetSize⟩

/-- The bytes of a step that receives. -/
def stored (old : Bytes) : ChildIn → Bytes
  | .poll _ _ _ r => r.stored
  | _ => old

def next (origin : Addr) (w : Watched) (i : ChildIn) : Option Watched :=
  (w.child.step origin i).map fun p => ⟨p.1, stored w.received i⟩

/-- What is about to be written is the payload of the datagram just received, or the start of it. -/
def Intact (w : Watched) : Prop :=
  ∀ pending, w.child.pc = .write pending →
    headerSize + pending.length ≤ w.received.length ∧ pending.length ≤ payloadSize ∧
      pending = (w.received.drop headerSize).take pending.length

/-- A step does not take a `DATA` packet that promises more bytes than the datagram has. -/
def Covered (w : Watched) (i : ChildIn) : Prop :=
  match w.child.pc, i with
  | .poll startTime, .poll now temp _ r =>
    now - startTime < 6 → 0 < r.ret → command (overlay r.stored temp) = cmdData →
      getSeqNum (overlay r.stored temp) = w.child.expectedSequence →
        headerSize + (getLen (overlay r.stored temp)).toNat ≤ r.stored.length
  | _, _ => True

theorem length_stored_le (r : Recv) : r.stored.length ≤ packetSize := by
  cases r with
  | got src d => simp [Recv.stored]
  | fail e => simp [Recv.stored]

/-- The bytes taken from the buffer are those received, as far as so many were received. -/
theorem peek_received {bs temp : Bytes} {beyond : ℕ → Byte} {n : ℕ}
    (h : headerSize + n ≤ bs.length) :
    peek (overlay bs temp) beyond headerSize n = (bs.drop headerSize).take n := by
  have hlen : bs.length ≤ (overlay bs temp).length := by simp [overlay]
  rw [peek_of_le (h.trans hlen), overlay, List.drop_append_of_le_length (by omega),
    List.take_append_of_le_length (by rw [List.length_drop]; omega)]

theorem intact_of_pc {w : Watched} (h : ∀ pending, w.child.pc ≠ .write pending) : w.Intact :=
  fun pending hpc => absurd hpc (h pending)

/-- A datagram: only a `DATA` packet in sequence makes the child write. -/
theorem intact_handle {c : Child} {now : ℤ} {temp : Bytes} {beyond : ℕ → Byte} {r : Recv} :
    Intact ⟨({ c with buffer := overlay r.stored temp }.handle now beyond).1, r.stored⟩ ↔
      (command (overlay r.stored temp) = cmdData → getSeqNum (overlay r.stored temp) =
        c.expectedSequence → headerSize + (getLen (overlay r.stored temp)).toNat ≤
          r.stored.length) := by
  unfold Child.handle
  dsimp only
  by_cases hcmd : command (overlay r.stored temp) = cmdData
  · rw [if_pos hcmd]
    by_cases hseq : getSeqNum (overlay r.stored temp) = c.expectedSequence
    · rw [if_neg (not_not.mpr hseq)]
      constructor
      · intro hI _ _
        have := (hI _ rfl).1
        rwa [length_peek] at this
      · intro hok pending hpc
        obtain rfl := ChildPc.write.inj hpc
        have hle := hok hcmd hseq
        have hp : payloadSize = packetSize - headerSize := rfl
        have hs := length_stored_le r
        rw [length_peek]
        exact ⟨hle, by omega, peek_received hle⟩
    · rw [if_pos hseq]
      exact ⟨fun _ _ h => absurd h hseq, fun _ => intact_of_pc (by simp)⟩
  · rw [if_neg hcmd]
    refine ⟨fun _ h => absurd h hcmd, fun _ => ?_⟩
    split_ifs <;> exact intact_of_pc (by simp)

/-- **One step**: what it leaves to write is intact exactly if the step is covered. -/
theorem intact_step {origin : Addr} {w t : Watched} {i : ChildIn} (hs : w.next origin i = some t) :
    t.Intact ↔ w.Covered i := by
  obtain ⟨⟨c, effs⟩, hstep, rfl⟩ := Option.map_eq_some_iff.mp hs
  unfold Covered
  cases Child.trans_of_step hstep with
  | datagram hpc ht hr =>
    simp only [hpc]
    exact intact_handle.trans ⟨fun h _ _ => h, fun h => h ht hr⟩
  | idle hpc ht hr =>
    simp only [hpc]
    exact iff_of_true (intact_of_pc (by simp)) fun _ h => absurd h hr
  | timeout hpc ht =>
    simp only [hpc]
    exact iff_of_true (intact_of_pc (by simp)) fun h => absurd h ht
  -- no other step leads to a write
  | start hpc =>
    simp only [hpc]
    exact iff_of_true (intact_of_pc (w.child.parse_settled _).1) trivial
  | access hpc =>
    simp only [hpc]
    exact iff_of_true (intact_of_pc (w.child.check_settled _).1) trivial
  | fwrite hpc hn =>
    simp only [hpc]
    refine iff_of_true (intact_of_pc ?_) trivial
    unfold Child.afterWrite
    split_ifs <;> simp [Child.finish]
  | finackRecv hpc =>
    simp only [hpc]
    exact iff_of_true (intact_of_pc (Child.finackStep_settled _ _ _ _ w.child).1) trivial
  | ackAgain hpc ht =>
    simp only [hpc]
    exact iff_of_true (intact_of_pc (by simp [hpc])) trivial
  | _ =>
    simp only [*]
    exact iff_of_true (intact_of_pc (by simp [Child.finish])) trivial

/-- **Payload integrity**: along a run of a child every write takes its bytes from the datagram just
received, and none past the payload of the buffer, exactly if every accepted `DATA` packet has at
least the bytes that it promises. -/
theorem appended_bytes_received_iff (origin : Addr) (datagram : Bytes) (is : List ChildIn)
    (w : Watched) (h : Machine.exec (next origin) (init datagram) is = some w) :
    Machine.Always (next origin) Intact (init datagram) is ↔
      Machine.Meets (next origin) Covered (init datagram) is :=
  Machine.always_iff_meets (J := fun _ => True) (fun _ _ _ _ _ => trivial)
    (fun _ _ _ _ _ => intact_step) trivial
    (intact_of_pc fun _ hpc => by cases hpc) h

/-- A request for a file `a` of three bytes is accepted, and the packet `d` comes. -/
def shortRun (d : Bytes) : List ChildIn :=
  [.setup true, .access false, .fopen true 0, .send true false 1,
    .poll 1 (List.replicate packetSize 7) (fun _ => 0) (.got ⟨[]⟩ d)]

/-- A packet that has its three bytes. -/
theorem appended_bytes_received_whole :
    Machine.Always (next ⟨[]⟩) Intact (init (requestPacket [97] 3))
    (shortRun (createPacket cmdData 1 3 [1, 2, 3])) := by
  obtain ⟨w, hw⟩ : ∃ w, Machine.exec (next ⟨[]⟩) (init (requestPacket [97] 3))
      (shortRun (createPacket cmdData 1 3 [1, 2, 3])) = some w := ⟨_, rfl⟩
  refine (appended_bytes_received_iff ⟨[]⟩ (requestPacket [97] 3) _ w hw).mpr ?_
  exact .cons rfl trivial (.cons rfl trivial (.cons rfl trivial (.cons rfl trivial (.cons rfl
    (fun _ _ _ _ => by decide +kernel) trivial))))

/-- A packet that promises three bytes and has one: two bytes of the old contents of the block are
written. -/
theorem short_packet_appends_old_bytes : ∃ w,
    Machine.exec (next ⟨[]⟩) (init (requestPacket [97] 3)) (shortRun [4, 0, 1, 0, 3, 42]) = some w ∧
      w.received = [4, 0, 1, 0, 3, 42] ∧ w.child.pc = .write [42, 7, 7] ∧
      ¬ Machine.Always (next ⟨[]⟩) Intact (init (requestPacket [97] 3))
      (shortRun [4, 0, 1, 0, 3, 42]) := by
  obtain ⟨w, hw, hr, hpc⟩ : ∃ w,
      Machine.exec (next ⟨[]⟩) (init (requestPacket [97] 3)) (shortRun [4, 0, 1, 0, 3, 42]) =
      some w ∧
        w.received = [4, 0, 1, 0, 3, 42] ∧ w.child.pc = .write [42, 7, 7] :=
        ⟨_, rfl, rfl, by decide +kernel⟩
  refine ⟨w, hw, hr, hpc, fun hall => ?_⟩
  have hI := (hall _ [] w (List.append_nil _).symm hw [42, 7, 7] hpc).1
  rw [hr] at hI
  exact absurd hI (by decide)

end Watched

end FortyTwoHundred.Ftp
