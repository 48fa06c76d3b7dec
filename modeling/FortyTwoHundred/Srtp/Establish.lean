import Mathlib.Order.Basic
import FortyTwoHundred.Srtp.StopAndWait

/-!
# Establish — `establish_conn` (`srtp_impl.cpp`)

A call of `establish_conn` as a machine with the events of `send_srtp_data`: the `write` of a `SYN`,
whose result is not looked at, and a poll.  The two loops are those of `send_srtp_data` with one
more way out, when the sum of the elapsed times is more than `CONNECT_TIMEOUT`.  The `break` on an
acknowledgement leaves the inner loop only, so the last part of the function, an `ACK` and `return
0`, is not reached.  `establishes_iff` says in which runs the call does what its documentation
says.
-/

namespace FortyTwoHundred.Srtp

/-- Milliseconds. -/
def connectTimeout : ℕ := 5000

/-- A call of `establish_conn`: its local variables, and the headers it has written. -/
structure Establish where
  pc : SendPc
  totalMsec : ℕ
  buff : Header
  written : List Header

namespace Establish

/-- The start of a call; `junk` is what its buffer holds then. -/
def init (junk : Header) : Establish := ⟨.write, 0, junk, []⟩

/-- The header of a `SYN`. -/
def syn (buff : Header) : Header := { buff with cmd := cmdSyn, seq := 0, len := 0 }

/-- `total_msec` after another poll. -/
def total (s : Establish) (t2 now : ℤ) : ℕ := (s.totalMsec + elapsed t2 now / 1000) % 2 ^ 64

/-- A poll; what `srtp_read` returns is in the buffer then. -/
def poll (s : Establish) (t2 : ℤ) (buff : Option Header) (now : ℤ) : Establish :=
  let s := { s with buff := buff.getD s.buff }
  if buff.any (isAck · 0) then { s with pc := .write }
  else
    let s' := { s with totalMsec := s.total t2 now }
    if connectTimeout < s'.totalMsec then { s' with pc := .done (-1) }
    else if retryTimeoutBase * 1000 < elapsed t2 now then { s' with pc := .write }
    else s'

def step (s : Establish) (i : SendIn) : Option Establish :=
  match s.pc, i with
  | .write, .write _ now =>
    some { s with pc := .poll now, buff := syn s.buff, written := s.written ++ [syn s.buff] }
  | .poll t2, .poll buff now => some (s.poll t2 buff now)
  | _, _ => none

/-- **Inversion**: a step is a transmission or a poll. -/
theorem of_step {s t : Establish} {i : SendIn} (h : s.step i = some t) :
    (∃ ok now, i = .write ok now ∧ s.pc = .write ∧ t.pc = .poll now ∧ t.totalMsec = s.totalMsec) ∨
      ∃ t2 buff now, i = .poll buff now ∧ s.pc = .poll t2 ∧ t = s.poll t2 buff now := by
  unfold step at h
  split at h
  · next ok now hpc =>
    obtain rfl := Option.some.inj h
    exact Or.inl ⟨ok, now, rfl, hpc, rfl, rfl⟩
  · next t2 buff now hpc =>
    obtain rfl := Option.some.inj h
    exact Or.inr ⟨t2, buff, now, rfl, hpc, rfl⟩
  · cases h

section Poll

variable (s : Establish) (t2 now : ℤ) {buff : Option Header}

theorem pc_poll_of_ack (h : buff.any (isAck · 0) = true) : (s.poll t2 buff now).pc = .write := by
  rw [poll]
  dsimp only
  rw [if_pos h]

theorem totalMsec_poll_of_ack (h : buff.any (isAck · 0) = true) :
    (s.poll t2 buff now).totalMsec = s.totalMsec := by
  rw [poll]
  dsimp only
  rw [if_pos h]

/-- Without an acknowledgement: the call gives up, sends again, or goes on polling. -/
theorem poll_of_not_ack (h : ¬ buff.any (isAck · 0) = true) :
    (s.poll t2 buff now).totalMsec = s.total t2 now ∧
      (s.poll t2 buff now).pc =
        if connectTimeout < s.total t2 now then .done (-1)
        else if retryTimeoutBase * 1000 < elapsed t2 now then .write
        else s.pc := by
  rw [poll]
  dsimp only
  rw [if_neg h]
  change (if connectTimeout < s.total t2 now then _ else _ : Establish).totalMsec = _ ∧
    (if connectTimeout < s.total t2 now then _ else _ : Establish).pc = _
  split_ifs
  · exact ⟨rfl, rfl⟩
  · exact ⟨rfl, rfl⟩
  · exact ⟨rfl, rfl⟩

end Poll

/-! ## Runs on a clock -/

/-- `establish_conn` on a clock that does not go back. -/
abbrev clocked : ℤ × Establish → SendIn → Option (ℤ × Establish) :=
    Machine.timed SendIn.time Establish.step

/-- What is asked of a step of a call made at `t0`: an acknowledgement in time leads to the return
of `0`; the call gives up only after `CONNECT_TIMEOUT` milliseconds; and a poll leads to another
`SYN` only after `RETRY_TIMEOUT_BASE` milliseconds. -/
structure Establishes (t0 : ℤ) (s : ℤ × Establish) (e : SendIn) (t : ℤ × Establish) : Prop where
  returns : e.acknowledges → e.time - t0 ≤ connectTimeout * 1000 →
    Machine.Inevitable clocked (fun u => u.2.pc = .done 0) t
  givesUp : t.2.pc = .done (-1) → connectTimeout * 1000 < e.time - t0
  waits : ∀ t2, s.2.pc = .poll t2 → t.2.pc = .write → retryTimeoutBase * 1000 < e.time - t2

/-- A poll that does no harm: what it takes for an acknowledgement comes late after the `SYN`, and
if it is one, too late for the call; and otherwise it reads the very time of the `SYN`, or a time
too late for the call. -/
def Harmless (t0 : ℤ) (s : ℤ × Establish) : SendIn → Prop
  | .poll buff now => ∀ t2, s.2.pc = .poll t2 → s.1 ≤ now →
      if buff.any (isAck · 0) = true then
        retryTimeoutBase * 1000 < now - t2 ∧
          ((SendIn.poll buff now).acknowledges → connectTimeout * 1000 < now - t0)
      else now = t2 ∨ connectTimeout * 1000 < now - t0
  | .write _ _ => True

/-- No run returns `0`. -/
theorem not_inevitable_zero {s : ℤ × Establish} (h : s.2.pc ≠ .done 0) :
    ¬ Machine.Inevitable clocked (fun u => u.2.pc = .done 0) s := by
  refine Machine.not_inevitable (I := fun u : ℤ × Establish => u.2.pc ≠ .done 0)
    (fun _ hu => hu) ?_ h
  intro u e v hu hs
  obtain ⟨-, hstep, -⟩ := Machine.timed_eq_some.mp hs
  rcases of_step hstep with ⟨_, now, -, -, hpc, -⟩ | ⟨t2, buff, now, -, -, hv⟩
  · rw [hpc]
    exact SendPc.noConfusion
  · rw [hv]
    by_cases hack : buff.any (isAck · 0) = true
    · rw [pc_poll_of_ack _ _ _ hack]
      exact SendPc.noConfusion
    · rw [(poll_of_not_ack _ _ _ hack).2]
      split_ifs
      · intro h
        cases h
      · exact SendPc.noConfusion
      · exact hu

/-- What holds in every run: the clock has not gone back since the call and the last `SYN`, and a
call that goes on has not used up its time. -/
structure Sane (t0 : ℤ) (s : ℤ × Establish) : Prop where
  called : t0 ≤ s.1
  stamp : ∀ t2, s.2.pc = .poll t2 → t0 ≤ t2 ∧ t2 ≤ s.1
  total : (∀ r, s.2.pc ≠ .done r) → s.2.totalMsec ≤ connectTimeout

theorem Sane.step {t0 : ℤ} {s t : ℤ × Establish} {e : SendIn} (h : Sane t0 s)
    (hs : clocked s e = some t) : Sane t0 t := by
  obtain ⟨hle, hstep, hclock⟩ := Machine.timed_eq_some.mp hs
  have hcalled : t0 ≤ t.1 := hclock ▸ le_trans h.called hle
  rcases of_step hstep with ⟨_, now, rfl, hw, hpc, htotal⟩ | ⟨t2, buff, now, rfl, hpoll, ht⟩
  · refine ⟨hcalled, ?_, fun _ => ?_⟩
    · intro t2 h2
      rw [hpc] at h2
      cases h2
      exact ⟨le_trans h.called hle, hclock.ge⟩
    · rw [htotal]
      exact h.total fun r hr => by rw [hw] at hr; cases hr
  · obtain ⟨h1, h2⟩ := h.stamp t2 hpoll
    have htotal : s.2.totalMsec ≤ connectTimeout :=
      h.total fun r hr => by rw [hpoll] at hr; cases hr
    have h2 : t2 ≤ t.1 := hclock ▸ le_trans h2 hle
    by_cases hack : buff.any (isAck · 0) = true
    · refine ⟨hcalled, fun t3 h3 => ?_, fun _ => ?_⟩
      · rw [ht, pc_poll_of_ack _ _ _ hack] at h3
        cases h3
      · rw [ht, totalMsec_poll_of_ack _ _ _ hack]
        exact htotal
    · obtain ⟨htot, hpc⟩ := poll_of_not_ack s.2 t2 now hack
      rw [← ht] at htot hpc
      refine ⟨hcalled, fun t3 h3 => ?_, fun hgo => ?_⟩
      · rw [hpc] at h3
        split_ifs at h3
        rw [hpoll] at h3
        cases h3
        exact ⟨h1, h2⟩
      · rw [htot]
        by_contra hlt
        rw [if_pos (Nat.lt_of_not_le hlt)] at hpc
        exact hgo _ hpc

section Step

variable {t0 : ℤ} {s : ℤ × Establish} {buff : Option Header} {now t2 : ℤ}

theorem clocked_poll (hle : s.1 ≤ now) (hpc : s.2.pc = .poll t2) :
    clocked s (.poll buff now) = some (now, s.2.poll t2 buff now) := by
  refine Machine.timed_eq_some.mpr ⟨hle, ?_, rfl⟩
  simp only [step, hpc]

/-- A poll at the very time of the `SYN` changes nothing. -/
theorem pc_poll_self (h : s.2.totalMsec ≤ connectTimeout) (hack : ¬ buff.any (isAck · 0) = true) :
    (s.2.poll now buff now).pc = s.2.pc := by
  have hmax : connectTimeout = 5000 := rfl
  have htotal : ¬ connectTimeout < s.2.total now now := by
    rw [total, elapsed_self]
    omega
  have hdt : ¬ retryTimeoutBase * 1000 < elapsed now now := by
    rw [elapsed_self]
    exact Nat.not_lt_zero _
  rw [(poll_of_not_ack s.2 now now hack).2, if_neg htotal, if_neg hdt]

/-- At any later time the call gives up. -/
theorem pc_poll_of_lt (h : s.2.totalMsec ≤ connectTimeout) (hack : ¬ buff.any (isAck · 0) = true)
    (h1 : t2 < now) (h2 : now - t2 < 2 ^ 63) : (s.2.poll t2 buff now).pc = .done (-1) := by
  rw [(poll_of_not_ack s.2 t2 now hack).2]
  apply if_pos
  have hlarge := le_elapsed t2 now h1 h2
  have hsmall := elapsed_lt t2 now
  have hmax : connectTimeout = 5000 := rfl
  unfold total
  omega

/-- **A poll** from a state that a run comes to. -/
theorem establishes_poll_iff (hs : Sane t0 s) (hpc : s.2.pc = .poll t2) (hle : s.1 ≤ now) :
    Establishes t0 s (.poll buff now) (now, s.2.poll t2 buff now) ↔
      if buff.any (isAck · 0) = true then
        retryTimeoutBase * 1000 < now - t2 ∧
          ((SendIn.poll buff now).acknowledges → connectTimeout * 1000 < now - t0)
      else now = t2 ∨ connectTimeout * 1000 < now - t0 := by
  obtain ⟨h0, h2⟩ := hs.stamp t2 hpc
  have htotal : s.2.totalMsec ≤ connectTimeout := hs.total fun r hr => by rw [hpc] at hr; cases hr
  by_cases hack : buff.any (isAck · 0) = true
  · have hw : (s.2.poll t2 buff now).pc = .write := pc_poll_of_ack _ _ _ hack
    rw [if_pos hack]
    constructor
    · intro h
      refine ⟨h.waits t2 hpc hw, fun ha => ?_⟩
      by_contra hearly
      refine not_inevitable_zero ?_ (h.returns ha (not_lt.mp hearly))
      rw [hw]
      exact SendPc.noConfusion
    · rintro ⟨hlate, hacks⟩
      refine ⟨fun ha htime => absurd (hacks ha) (not_lt.mpr htime), fun hd => ?_, fun t3 h3 _ => ?_⟩
      · rw [hw] at hd
        cases hd
      · rw [hpc] at h3
        cases h3
        exact hlate
  · have hno : ¬ (SendIn.poll buff now).acknowledges := by
      intro ha
      cases buff with
      | none => exact ha
      | some h => exact hack ha.isAck
    rw [if_neg hack]
    constructor
    · intro h
      by_contra hbad
      obtain ⟨hne, hearly⟩ := not_or.mp hbad
      have hmax : connectTimeout = 5000 := rfl
      exact hearly (h.givesUp (pc_poll_of_lt htotal hack (by omega) (by omega)))
    · intro hok
      refine ⟨fun ha => absurd ha hno, fun hd => ?_, fun t3 h3 hw => ?_⟩
      · rcases hok with rfl | hlate
        · rw [pc_poll_self htotal hack, hpc] at hd
          cases hd
        · exact hlate
      · obtain rfl : t3 = t2 := by
          rw [hpc] at h3
          cases h3
          rfl
        -- a poll less than the timeout after the `SYN` does not lead to another one
        by_contra hearly
        have hbase : retryTimeoutBase = 50 := rfl
        change ¬ (retryTimeoutBase : ℤ) * 1000 < now - t3 at hearly
        rcases eq_or_lt_of_le (le_trans h2 hle) with rfl | hlt
        · rw [pc_poll_self htotal hack, hpc] at hw
          cases hw
        · rw [pc_poll_of_lt htotal hack hlt (by omega)] at hw
          cases hw

end Step

/-- **Connection establishment**: a run on any clock has every step as asked if and only if all its
polls are harmless. -/
theorem establishes_iff (junk : Header) (t0 : ℤ) (es : List SendIn) :
    Machine.Meets clocked (fun s e => ∀ t, clocked s e = some t → Establishes t0 s e t)
    (t0, init junk) es ↔
      Machine.Meets clocked (Harmless t0) (t0, init junk) es := by
  refine Machine.meets_congr (J := Sane t0) (fun _ _ _ h hs => h.step hs) ?_ ?_ es
  · intro s e hs
    cases e with
    | write ok now =>
      refine iff_of_true (fun t ht => ?_) trivial
      obtain ⟨-, hstep, -⟩ := Machine.timed_eq_some.mp ht
      rcases of_step hstep with ⟨_, _, -, hw, hpc, -⟩ | ⟨_, _, _, h, -⟩
      · refine ⟨fun h => h.elim, fun hd => ?_, fun t2 h2 => ?_⟩
        · rw [hpc] at hd
          cases hd
        · rw [hw] at h2
          cases h2
      · cases h
    | poll buff now =>
      constructor
      · intro h t2 hpc hle
        exact (establishes_poll_iff hs hpc hle).mp (h _ (clocked_poll hle hpc))
      · intro h t ht
        obtain ⟨hle, hstep, hclock⟩ := Machine.timed_eq_some.mp ht
        rcases of_step hstep with ⟨_, _, h', -⟩ | ⟨t2, _, _, h', hpc, hpoll⟩
        · cases h'
        · cases h'
          obtain rfl : t = (now, s.2.poll t2 buff now) := Prod.ext hclock hpoll
          exact (establishes_poll_iff hs hpc hle).mpr (h t2 hpc hle)
  · refine ⟨le_rfl, fun t2 h => ?_, fun _ => Nat.zero_le _⟩
    cases h

/-- A poll one microsecond after the `SYN` gives up; and after an acknowledgement the call does not
return. -/
theorem gives_up_at_once :
    (∃ s, Machine.exec clocked (0, init ⟨0, 0, 0, 0, 0⟩) [.write true 0, .poll none 1] = some s ∧
      s.2.pc = .done (-1)) ∧
      ¬ Machine.Meets clocked (fun s e => ∀ t, clocked s e = some t → Establishes 0 s e t)
      (0, init ⟨0, 0, 0, 0, 0⟩)
        [.write true 0, .poll none 1] ∧
      ¬ Machine.Meets clocked (fun s e => ∀ t, clocked s e = some t → Establishes 0 s e t)
      (0, init ⟨0, 0, 0, 0, 0⟩)
        [.write true 0, .poll (some ⟨0, 0, 0, 0, cmdAck⟩) 0] := by
  refine ⟨⟨_, rfl, rfl⟩, ?_, ?_⟩
  · intro h
    exact absurd ((h.2 _ rfl).1 _ rfl).givesUp (by decide)
  · intro h
    refine not_inevitable_zero ?_ (((h.2 _ rfl).1 _ rfl).returns ⟨by decide, rfl⟩ (by decide))
    exact SendPc.noConfusion

end Establish

end FortyTwoHundred.Srtp
