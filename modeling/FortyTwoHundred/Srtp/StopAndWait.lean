import Mathlib.Algebra.Group.Nat.Defs
import Mathlib.Data.Int.Order.Basic
import FortyTwoHundred.Lib.Timed
import FortyTwoHundred.Srtp.Send

/-!
# StopAndWait — acknowledgements and retransmissions of `send_srtp_data`

A block is meant to be sent, to be sent again when `RETRY_TIMEOUT_BASE` milliseconds have passed
without an acknowledgement, and to be done with at the first acknowledgement.

* `send_ack_to` puts the number it acknowledges in `seq` and leaves `ack` as the stack has it, while
  the sender looks at `ack`; and the sender's test for the `ACK` bit, `cmd && ACK`, is true of every
  command but `0` (`ack_test_iff`).
* The `break` on an acknowledgement leads to another transmission, so the call never returns; and
  the elapsed time is taken from the later reading of the clock to the earlier one, so that one
  microsecond is a huge number.  `stop_and_wait_iff` says in which runs neither shows.
-/

namespace FortyTwoHundred.Srtp

/-! ## Acknowledgements -/

/-- A header that acknowledges `seq`: the `ACK` bit is set, and the acknowledgement number is
`seq`. -/
def Acknowledges (h : Header) (seq : UInt16) : Prop := h.cmd &&& cmdAck ≠ 0 ∧ h.ack = seq

instance (h : Header) (seq : UInt16) :
    Decidable (Acknowledges h seq) := by unfold Acknowledges; infer_instance

/-- The header of `send_ack_to`; `junk` is what its local variable holds before the assignments. -/
def sendAckTo (junk : Header) (seq : UInt32) :
    Header := { junk with cmd := cmdAck, len := 0, seq := seq.toUInt16 }

theorem isAck_iff {h : Header} {seq : UInt16} : isAck h seq = true ↔ h.cmd ≠ 0 ∧ h.ack = seq := by
  have hack : cmdAck ≠ 0 := by decide
  simp [isAck, pktHasCmd, hack]

theorem Acknowledges.isAck {h : Header} {seq : UInt16} (ha : Acknowledges h seq) :
    isAck h seq = true := by
  refine isAck_iff.mpr ⟨fun h0 => ha.1 ?_, ha.2⟩
  rw [h0]
  decide

/-- **The acknowledgement test**: what `send_ack_to` sends for `s` is an acknowledgement for a
sender that waits for `s'` exactly if `s = s'`, and the test takes exactly the headers that
acknowledge `s'`, if and only if the unset `ack` field happens to hold `s'` exactly if `s = s'`,
and the header is not one with the number `s'` and a command without the `ACK` bit. -/
theorem ack_test_iff (bo : ByteOrder) (junk : Header) (s s' : UInt16) (buff : Bytes) :
    ((isAck (header bo ((sendAckTo junk s.toUInt32).bytes bo)) s' = true ↔ s = s') ∧
        (isAck (header bo buff) s' = true ↔ Acknowledges (header bo buff) s')) ↔
      (junk.ack = s' ↔ s = s') ∧
        ¬ ((header bo buff).cmd ≠ 0 ∧ (header bo buff).cmd &&& cmdAck = 0 ∧
          (header bo buff).ack = s') := by
  have hsent : header bo ((sendAckTo junk s.toUInt32).bytes bo) = sendAckTo junk s.toUInt32 := by
    have := header_bytes bo (sendAckTo junk s.toUInt32) []
    rwa [List.append_nil] at this
  have hcmd : (sendAckTo junk s.toUInt32).cmd ≠ 0 := by
    show cmdAck ≠ 0
    decide
  have hfirst : isAck (header bo ((sendAckTo junk s.toUInt32).bytes bo)) s' = true ↔
      junk.ack = s' := by
    rw [hsent, isAck_iff]
    exact and_iff_right hcmd
  rw [hfirst]
  refine and_congr_right fun _ => ?_
  constructor
  · rintro h ⟨h0, hbit, hack⟩
    exact (h.mp (isAck_iff.mpr ⟨h0, hack⟩)).1 hbit
  · intro h
    refine ⟨fun ha => ?_, fun ha => ha.isAck⟩
    obtain ⟨h0, hack⟩ := isAck_iff.mp ha
    exact ⟨fun hbit => h ⟨h0, hbit, hack⟩, hack⟩

/-- The acknowledgement of packet `5` with zeros in the unset fields is not taken for one, and a
`SYN` is. -/
theorem ack_not_recognised :
    ¬ (isAck (header .little ((sendAckTo ⟨0, 0, 0, 0, 0⟩ (UInt16.toUInt32 5)).bytes .little)) 5 =
      true ↔ (5 : UInt16) = 5) ∧
      ¬ (isAck (header .little [0, 0, 0, 0, 0, 0, 0, 1]) 0 = true ↔
        Acknowledges (header .little [0, 0, 0, 0, 0, 0, 0, 1]) 0) := by
  constructor
  · decide
  · decide

/-! ## The elapsed time -/

@[simp] theorem elapsed_self (now : ℤ) : elapsed now now = 0 := by simp [elapsed]

/-- A clock that goes forward gives a huge elapsed time. -/
theorem le_elapsed (t2 now : ℤ) (h1 : t2 < now) (h2 : now - t2 < 2 ^ 63) :
    2 ^ 63 ≤ elapsed t2 now := by
  unfold elapsed
  omega

theorem elapsed_lt (t2 now : ℤ) : elapsed t2 now < 2 ^ 64 := by
  unfold elapsed
  omega

/-! ## Transmissions -/

def SendIn.time : SendIn → ℤ
  | .write _ now => now
  | .poll _ now => now

/-- The poll finds an acknowledgement of the block. -/
def SendIn.acknowledges : SendIn → Prop
  | .poll (some h) _ => Acknowledges h 0
  | _ => False

namespace Send

/-- `send_srtp_data` on a clock that does not go back. -/
abbrev clocked : ℤ × Send → SendIn → Option (ℤ × Send) := Machine.timed SendIn.time Send.step

/-- What is asked of a step: it transmits nothing, or the block, once and in the state `write`; an
acknowledgement leads to the return of the number of bytes without another transmission; and a poll
leads to another transmission only if it finds no acknowledgement and more than
`RETRY_TIMEOUT_BASE` milliseconds have passed since the last one. -/
structure StopsAndWaits (s : ℤ × Send) (e : SendIn) (t : ℤ × Send) : Prop where
  sends : t.2.written = s.2.written ∨ s.2.pc = .write ∧ t.2.written = s.2.written ++ [s.2.data]
  returns : e.acknowledges →
    Machine.Inevitable clocked (fun u => u.2.pc = .done s.2.data.length ∧
    u.2.written = s.2.written) t
  waits : ∀ t2, s.2.pc = .poll t2 → t.2.pc = .write → ¬ e.acknowledges ∧
    retryTimeoutBase * 1000 < e.time - t2

/-- A poll that finds no acknowledgement, and reads the very time of the last transmission without a
header that is taken for an acknowledgement, or a time more than `RETRY_TIMEOUT_BASE` milliseconds
later. -/
def Harmless (s : ℤ × Send) : SendIn → Prop
  | .poll buff now => ∀ t2, s.2.pc = .poll t2 → s.1 ≤ now →
      ¬ (SendIn.poll buff now).acknowledges ∧
        ((now = t2 ∧ ¬ buff.any (isAck · 0) = true) ∨ retryTimeoutBase * 1000 < now - t2)
  | .write _ _ => True

/-- The only way out of the loops is the `return` after a failed `write`. -/
theorem not_inevitable_done {s : ℤ × Send} (h : ∀ r, s.2.pc = .done r → r = -1) (n : ℕ)
    (w : List Bytes) : ¬ Machine.Inevitable clocked (fun u => u.2.pc = .done n ∧ u.2.written = w)
      s := by
  refine Machine.not_inevitable (I := fun u : ℤ × Send => ∀ r, u.2.pc = .done r → r = -1) ?_ ?_ h
  · rintro u hu ⟨hd, -⟩
    have := hu n hd
    omega
  · intro u e v hu hs r hr
    obtain ⟨-, hstep, -⟩ := Machine.timed_eq_some.mp hs
    generalize v.2 = w at hstep hr
    cases trans_of_step hstep with
    | sent _ => cases hr
    | failed _ =>
      cases hr
      rfl
    | acked _ _ => cases hr
    | again _ _ _ => cases hr
    | wait _ _ _ => exact hu r hr

/-- The last transmission is not in the future. -/
def Stamped (s : ℤ × Send) : Prop := ∀ t2, s.2.pc = .poll t2 → t2 ≤ s.1

theorem Stamped.step {s t : ℤ × Send} {e : SendIn} (h : Stamped s) (hs : clocked s e = some t) :
    Stamped t := by
  obtain ⟨hle, hstep, hclock⟩ := Machine.timed_eq_some.mp hs
  intro t2 hpc
  rw [hclock]
  generalize ht : t.2 = u at hstep hpc
  cases trans_of_step hstep with
  | sent _ =>
    cases hpc
    exact le_rfl
  | failed _ => cases hpc
  | acked _ _ => cases hpc
  | again _ _ _ => cases hpc
  | wait _ _ _ => exact le_trans (h t2 hpc) hle

section Step

variable {s : ℤ × Send} {buff : Option Header} {now t2 : ℤ}

/-- A poll that goes back to a transmission. -/
theorem poll_writes (hle : s.1 ≤ now) (hpc : s.2.pc = .poll t2)
    (h : buff.any (isAck · 0) = true ∨ retryTimeoutBase * 1000 < elapsed t2 now) :
    clocked s (.poll buff now) = some (now, { s.2 with pc := .write }) := by
  refine Machine.timed_eq_some.mpr ⟨hle, ?_, rfl⟩
  simp only [step, hpc]
  split_ifs with h1 h2
  · rfl
  · rfl
  · exact absurd h (by simp [h1, h2])

/-- A poll writes nothing. -/
theorem written_of_poll {u v : Send} (h : u.step (.poll buff now) = some v) :
    v.written = u.written := by
  cases trans_of_step h with
  | acked _ _ => rfl
  | again _ _ _ => rfl
  | wait _ _ _ => rfl

/-- **One step.** -/
theorem stopsAndWaits_iff (hst : Stamped s) (e : SendIn) :
    (∀ t, clocked s e = some t → StopsAndWaits s e t) ↔ Harmless s e := by
  cases e with
  | write ok now =>
    refine iff_of_true (fun t ht => ?_) trivial
    obtain ⟨-, hstep, -⟩ := Machine.timed_eq_some.mp ht
    obtain ⟨hpc, hsends⟩ : s.2.pc = .write ∧
        (t.2.written = s.2.written ∨ t.2.written = s.2.written ++ [s.2.data]) := by
      generalize t.2 = u at hstep
      cases trans_of_step hstep with
      | sent hpc => exact ⟨hpc, Or.inr rfl⟩
      | failed hpc => exact ⟨hpc, Or.inl rfl⟩
    exact ⟨hsends.imp_right (And.intro hpc), fun h => h.elim, fun t2 h => by rw [hpc] at h; cases h⟩
  | poll buff now =>
    constructor
    · intro hgood t2 hpc hle
      have h2 := hst t2 hpc
      have hno : ¬ (SendIn.poll buff now).acknowledges := by
        intro hack
        have htest : buff.any (isAck · 0) = true := by
          cases buff with
          | none => exact hack.elim
          | some h => exact Acknowledges.isAck hack
        have hw := poll_writes hle hpc (Or.inl htest)
        exact ((hgood _ hw).waits t2 hpc rfl).1 hack
      refine ⟨hno, ?_⟩
      by_cases hlate : (retryTimeoutBase : ℤ) * 1000 < now - t2
      · exact Or.inr hlate
      · left
        -- an early poll must not lead to a transmission
        have hearly : ∀ t, clocked s (.poll buff now) = some t → t.2.pc ≠ .write := fun t ht hw =>
          hlate ((hgood t ht).waits t2 hpc hw).2
        have htest : ¬ buff.any (isAck · 0) = true := fun h =>
            hearly _ (poll_writes hle hpc (Or.inl h)) rfl
        have hdt : ¬ retryTimeoutBase * 1000 < elapsed t2 now := fun h =>
            hearly _ (poll_writes hle hpc (Or.inr h)) rfl
        refine ⟨?_, htest⟩
        by_contra hne
        have hbase : retryTimeoutBase = 50 := rfl
        have := le_elapsed t2 now (by omega) (by omega)
        omega
    · intro hok t ht
      obtain ⟨hle, hstep, -⟩ := Machine.timed_eq_some.mp ht
      obtain ⟨t2, hpc⟩ : ∃ t2, s.2.pc = .poll t2 := by
        generalize t.2 = u at hstep
        cases trans_of_step hstep with
        | acked hpc _ => exact ⟨_, hpc⟩
        | again hpc _ _ => exact ⟨_, hpc⟩
        | wait hpc _ _ => exact ⟨_, hpc⟩
      obtain ⟨hno, hwhen⟩ := hok t2 hpc hle
      refine ⟨Or.inl (written_of_poll hstep), fun hack => absurd hack hno,
        fun t3 hpc3 hw => ⟨hno, ?_⟩⟩
      obtain rfl : t3 = t2 := by
        rw [hpc] at hpc3
        cases hpc3
        rfl
      rcases hwhen with ⟨rfl, htest⟩ | hlate
      · -- no time has passed and nothing is taken for an acknowledgement: the loop goes round
        have hstay : s.2.step (.poll buff now) = some s.2 := by
          simp only [step, hpc, elapsed_self]
          rw [if_neg htest, if_neg (Nat.not_lt_zero _)]
        rw [hstay] at hstep
        rw [← Option.some.inj hstep, hpc] at hw
        cases hw
      · exact hlate

end Step

/-- **Stop and wait**: a run on any clock has every step as asked if and only if all its polls are
harmless. -/
theorem stop_and_wait_iff (data : Bytes) (t0 : ℤ) (es : List SendIn) :
    Machine.Meets clocked (fun s e => ∀ t, clocked s e = some t → StopsAndWaits s e t)
    (t0, init data) es ↔
      Machine.Meets clocked Harmless (t0, init data) es := by
  refine Machine.meets_congr (J := Stamped) (fun _ _ _ h hs => h.step hs)
    (fun s e h => stopsAndWaits_iff h e) ?_ es
  intro t2 h
  cases h

/-- A poll one microsecond after the transmission leads to another one; and after an acknowledgement
the call does not return. -/
theorem retransmits_at_once :
    (∃ s, Machine.exec clocked (0, init [7]) [.write true 0, .poll none 1] = some s ∧
      s.2.pc = .write) ∧
      ¬ Machine.Meets clocked (fun s e => ∀ t, clocked s e = some t → StopsAndWaits s e t)
      (0, init [7])
        [.write true 0, .poll none 1] ∧
      (SendIn.poll (some ⟨0, 0, 0, 0, cmdAck⟩) 0).acknowledges ∧
      ∀ s, Machine.exec clocked (0, init [7]) [.write true 0, .poll (some ⟨0, 0, 0, 0, cmdAck⟩) 0] =
        some s → ¬ Machine.Inevitable clocked (fun u => u.2.pc = .done 1 ∧
          u.2.written = s.2.written) s := by
  refine ⟨⟨(1, ⟨.write, [7], [[7]]⟩), rfl, rfl⟩, ?_, ⟨by decide, rfl⟩, ?_⟩
  · intro h
    have hw : clocked (0, ⟨.poll 0, [7], [[7]]⟩) (.poll none 1) = some (1, ⟨.write, [7], [[7]]⟩) :=
      rfl
    have := ((h.2 (0, ⟨.poll 0, [7], [[7]]⟩) rfl).1 _ hw).waits 0 rfl rfl
    exact absurd this.2 (by decide)
  · intro s hs
    have hpc : s = (0, ⟨.write, [7], [[7]]⟩) := (Option.some.inj hs).symm
    refine not_inevitable_done ?_ 1 _
    intro r hr
    rw [hpc] at hr
    cases hr

end Send

end FortyTwoHundred.Srtp
