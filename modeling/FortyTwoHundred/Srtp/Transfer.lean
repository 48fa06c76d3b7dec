import Mathlib.Algebra.Group.Int.Defs
import Mathlib.Tactic.Common
import FortyTwoHundred.Memory
import FortyTwoHundred.Lib.Machine

/-!
# Transfer — the loops of `srtp_write`, `srtp_read` and `srtp_sendto` (`srtp_impl.cpp`)

The three functions are the same loop around a system call: the value of the call is added to a
total, and the loop goes on while the total is greater than `0` and less than the length.  So a
call that fails after some progress takes one byte off the total, and one that gives `0` then leads
to another call.  `transfer_loops_iff` says in which runs neither happens.

A step of the machine is one system call.  The total cannot overflow: it is at most the size of the
buffer.
-/

namespace FortyTwoHundred.Srtp

/-- A system call that moves bytes between a buffer and a descriptor; `ε` is what the system
does. -/
structure Medium (ε : Type) where
  /-- the value of the call -/
  result : ε → ℤ
  /-- the bytes that are moved by a call for the buffer from the place `off` on -/
  bytes : Bytes → ℕ → ε → Bytes
  /-- the buffer after the call -/
  after : Bytes → ℕ → ε → Bytes
  length_bytes : ∀ buffer off e, off + (result e).toNat ≤ buffer.length →
    (bytes buffer off e).length = (result e).toNat
  after_eq : ∀ buffer off e, off + (result e).toNat ≤ buffer.length → after buffer off e =
    poke off (bytes buffer off e) buffer

/-- A call in progress. -/
structure Transfer where
  buffer : Bytes
  length : ℕ
  /-- `sent` or `recvd` -/
  total : ℤ
  /-- number of system calls made -/
  calls : ℕ
  /-- the places of the buffer whose bytes have been moved, in order -/
  places : List ℕ
  /-- the bytes that have been moved, in order -/
  moved : Bytes
  returned : Option ℤ

namespace Transfer

def init (buffer : Bytes) (length : ℕ) : Transfer := ⟨buffer, length, 0, 0, [], [], none⟩

/-- One turn of a loop; `none` if the function has returned, or the value of the call is not `-1`,
`0` or a count up to the one asked for. -/
def step {ε : Type} (m : Medium ε) (t : Transfer) (e : ε) : Option Transfer :=
  let r := m.result e
  if t.returned.isSome then none
  else if -1 ≤ r ∧ r ≤ t.length - t.total then
    let off := t.total.toNat
    let total := t.total + r
    some
      { t with
        buffer := m.after t.buffer off e
        total := total
        calls := t.calls + 1
        places := t.places ++ (List.range r.toNat).map (off + ·)
        moved := t.moved ++ m.bytes t.buffer off e
        returned := if 0 < total ∧ total < t.length then none else some total }
  else none

end Transfer

/-- `write` and `sendto`: the system takes as many bytes as it says. -/
def taking : Medium ℤ where
  result r := r
  bytes buffer off r := (buffer.drop off).take r.toNat
  after buffer _ _ := buffer
  length_bytes buffer off r h := by
    rw [List.length_take, List.length_drop]
    omega
  after_eq buffer off r h := by
    have hlen : ((buffer.drop off).take r.toNat).length = r.toNat := by
      rw [List.length_take, List.length_drop]
      omega
    rw [poke, hlen, ← List.drop_drop, List.append_assoc, List.take_append_drop,
      List.take_append_drop]

/-- `read`: the system gives some bytes, or fails. -/
def giving : Medium (Option Bytes) where
  result
    | some bs => bs.length
    | none => -1
  bytes _ _ e := e.getD []
  after buffer off e := poke off (e.getD []) buffer
  length_bytes buffer off e h := by
    cases e with
    | none => rfl
    | some bs => rfl
  after_eq buffer off e h := rfl

/-- `srtp_write`. -/
def srtpWrite : Transfer → ℤ → Option Transfer := Transfer.step taking

/-- `srtp_read`. -/
def srtpRead : Transfer → Option Bytes → Option Transfer := Transfer.step giving

/-- `srtp_sendto`; every call gets the same flags and the same address. -/
def srtpSendto : Transfer → ℤ → Option Transfer := Transfer.step taking

namespace Transfer

/-- What is asked of a system call of a transfer of `buffer`: the function returns after it exactly
if it has given `0` or `-1` or all bytes are moved; its value is the number of bytes moved, or `-1`
if the first call has failed; and the bytes moved are those of the start of the buffer, in order
and once each. -/
structure Transfers {ε : Type} (m : Medium ε) (buffer : Bytes) (s : Transfer) (e : ε)
    (t : Transfer) : Prop where
  stops : t.returned.isSome = true ↔ m.result e ≤ 0 ∨ t.places.length = t.length
  value : ∀ v, t.returned = some v → v = if s.calls = 0 ∧ m.result e = -1 then -1
    else (t.places.length : ℤ)
  places : t.places = List.range t.places.length
  moved : t.moved = t.buffer.take t.places.length
  rest : t.buffer.drop t.places.length = buffer.drop t.places.length

/-- A call after the first gives at least one byte. -/
def Progresses {ε : Type} (m : Medium ε) (s : Transfer) (e : ε) :
    Prop := s.step m e ≠ none → 0 < s.calls → 0 < m.result e

/-- What holds before each system call, as long as there is progress. -/
structure Regular (buffer : Bytes) (s : Transfer) : Prop where
  room : s.length ≤ buffer.length
  total : s.calls = 0 ∧ s.total = 0 ∨ 0 < s.calls ∧ 0 < s.total ∧ s.total < s.length
  places : s.places = List.range s.total.toNat
  moved : s.moved = s.buffer.take s.total.toNat
  rest : s.buffer.drop s.total.toNat = buffer.drop s.total.toNat
  size : s.buffer.length = buffer.length

section Steps

variable {ε : Type} {m : Medium ε} {buffer : Bytes} {s t : Transfer} {e : ε}

/-- **Inversion**: what a step does. -/
theorem of_step (h : s.step m e = some t) :
    s.returned = none ∧ -1 ≤ m.result e ∧ m.result e ≤ s.length - s.total ∧
      t = ⟨m.after s.buffer s.total.toNat e, s.length, s.total + m.result e, s.calls + 1,
        s.places ++ (List.range (m.result e).toNat).map (s.total.toNat + ·),
        s.moved ++ m.bytes s.buffer s.total.toNat e,
        if 0 < s.total + m.result e ∧ s.total + m.result e < s.length then none
          else some (s.total + m.result e)⟩ := by
  unfold step at h
  dsimp only at h
  by_cases h1 : s.returned.isSome = true
  · rw [if_pos h1] at h
    cases h
  · rw [if_neg h1] at h
    by_cases h2 : -1 ≤ m.result e ∧ m.result e ≤ s.length - s.total
    · rw [if_pos h2] at h
      exact ⟨by simpa using h1, h2.1, h2.2, (Option.some.inj h).symm⟩
    · rw [if_neg h2] at h
      cases h

/-- Whatever the value of the call, the bytes moved are those of the start of the buffer. -/
theorem Regular.moves (h : Regular buffer s) (hs : s.step m e = some t) :
    t.places = List.range (s.total.toNat + (m.result e).toNat) ∧
      t.moved = t.buffer.take (s.total.toNat + (m.result e).toNat) ∧
      t.buffer.drop (s.total.toNat + (m.result e).toNat) =
        buffer.drop (s.total.toNat + (m.result e).toNat) ∧
      t.buffer.length = buffer.length := by
  obtain ⟨-, hlow, hhigh, rfl⟩ := of_step hs
  have hroom := h.room
  have hsize := h.size
  have hfits : s.total.toNat + (m.result e).toNat ≤ s.buffer.length := by
    rcases h.total with ⟨-, h0⟩ | ⟨-, h0, hlt⟩
    · omega
    · omega
  have hoff : s.total.toNat ≤ s.buffer.length := Nat.le_trans (Nat.le_add_right _ _) hfits
  have hlen := m.length_bytes s.buffer s.total.toNat e hfits
  have hafter := m.after_eq s.buffer s.total.toNat e hfits
  refine ⟨?_, ?_, ?_, ?_⟩
  · dsimp only
    rw [h.places, ← List.range_add]
  · dsimp only
    rw [hafter, ← hlen, take_poke hoff, h.moved]
  · dsimp only
    rw [hafter, ← hlen, drop_poke hoff, ← List.drop_drop, ← List.drop_drop, h.rest]
  · dsimp only
    rw [hafter, length_poke (by rw [hlen]; exact hfits), hsize]

theorem Regular.step (h : Regular buffer s) (hok : Progresses m s e) (hs : s.step m e = some t)
    (ht : t.returned = none) : Regular buffer t := by
  obtain ⟨hplaces, hmoved, hrest, hsize⟩ := h.moves hs
  obtain ⟨hnone, hlow, hhigh, rfl⟩ := of_step hs
  obtain ⟨hpos, hlt⟩ : 0 < s.total + m.result e ∧ s.total + m.result e < s.length := by
    by_contra hbad
    dsimp only at ht
    rw [if_neg hbad] at ht
    cases ht
  have hprog : 0 ≤ s.total ∧ 0 ≤ m.result e := by
    rcases h.total with ⟨-, h0⟩ | ⟨hc, h0, -⟩
    · omega
    · have := hok (by rw [hs]; exact Option.some_ne_none _) hc
      omega
  have hsum : (s.total + m.result e).toNat = s.total.toNat + (m.result e).toNat := by omega
  rw [← hsum] at hplaces hmoved hrest
  exact ⟨h.room, Or.inr ⟨Nat.succ_pos _, hpos, hlt⟩, hplaces, hmoved, hrest, hsize⟩

/-- **One system call** is as asked exactly if it progresses. -/
theorem transfers_iff (h : s.returned = none → Regular buffer s) (e : ε) :
    (∀ t, s.step m e = some t → Transfers m buffer s e t) ↔ Progresses m s e := by
  constructor
  · intro hgood hne hcalls
    obtain ⟨t, hs⟩ := Option.ne_none_iff_exists'.mp hne
    obtain ⟨hstops, hvalue, -, -, -⟩ := hgood t hs
    obtain ⟨hnone, hlow, hhigh, ht⟩ := of_step hs
    have hreg := h hnone
    obtain ⟨hplaces, -, -, -⟩ := hreg.moves hs
    rcases hreg.total with ⟨h0, -⟩ | ⟨-, hpos, hlt⟩
    · omega
    · by_contra hbad
      -- the function must return now, so the total has gone from `1` to `0`; but one byte has been
      -- moved
      have hret : ¬ (0 < s.total + m.result e ∧ s.total + m.result e < s.length) := by
        intro hgo
        have := hstops.mpr (Or.inl (Int.not_lt.mp hbad))
        rw [ht] at this
        dsimp only at this
        rw [if_pos hgo] at this
        cases this
      have hv := hvalue (s.total + m.result e) (by rw [ht]; exact if_neg hret)
      rw [if_neg fun hfirst => by omega, hplaces, List.length_range] at hv
      omega
  · intro hok t hs
    have hprog := hok (by rw [hs]; exact Option.some_ne_none _)
    obtain ⟨hnone, hlow, hhigh, ht⟩ := of_step hs
    have hreg := h hnone
    obtain ⟨hplaces, hmoved, hrest, -⟩ := hreg.moves hs
    have hlen : t.places.length = s.total.toNat + (m.result e).toNat := by rw [hplaces,
        List.length_range]
    have hlength : t.length = s.length := by rw [ht]
    have hreturned : t.returned =
        if 0 < s.total + m.result e ∧ s.total + m.result e < s.length then none
          else some (s.total + m.result e) := by
      rw [ht]
    have hcase : s.calls = 0 ∧ s.total = 0 ∨ 0 < s.total ∧ 0 < m.result e := by
      rcases hreg.total with hfirst | ⟨hc, hpos, -⟩
      · exact Or.inl hfirst
      · exact Or.inr ⟨hpos, hprog hc⟩
    refine ⟨?_, ?_, by rw [hlen, hplaces], by rw [hlen, hmoved], by rw [hlen, hrest]⟩
    · rw [hreturned, hlen, hlength]
      split_ifs with hgo
      · exact iff_of_false (by simp) (by omega)
      · exact iff_of_true rfl (by omega)
    · intro v hv
      rw [hreturned] at hv
      split_ifs at hv with hgo
      cases hv
      rw [hlen]
      split_ifs with hfirst
      · omega
      · omega

end Steps

/-- A run of system calls is as asked if and only if all of them progress. -/
theorem meets_transfers_iff {ε : Type} (m : Medium ε) {buffer : Bytes} {length : ℕ}
    (hlen : length ≤ buffer.length) (es : List ε) :
    Machine.Meets (step m) (fun s e => ∀ t, s.step m e = some t → Transfers m buffer s e t)
    (init buffer length) es ↔
      Machine.Meets (step m) (Progresses m) (init buffer length) es := by
  refine Machine.meets_congr_of (J := fun s => s.returned = none → Regular buffer s) ?_
    (fun s e h => transfers_iff h e) ?_ es
  · intro s e t h hok hs ht
    exact (h (of_step hs).1).step hok hs ht
  · intro _
    exact ⟨hlen, Or.inl ⟨rfl, rfl⟩, rfl, rfl, rfl, rfl⟩

end Transfer

/-- **The transfer loops**: every system call of a run of `srtp_write`, `srtp_read` or `srtp_sendto`
is as asked if and only if no call after the first gives `0` or `-1`. -/
theorem transfer_loops_iff (buffer : Bytes) (length : ℕ) (hlen : length ≤ buffer.length)
    (ws : List ℤ) (rs : List (Option Bytes)) (ss : List ℤ) :
    (Machine.Meets srtpWrite (fun s e => ∀ t, srtpWrite s e = some t →
      Transfer.Transfers taking buffer s e t)
        (Transfer.init buffer length) ws ↔
      Machine.Meets srtpWrite (Transfer.Progresses taking) (Transfer.init buffer length) ws) ∧
    (Machine.Meets srtpRead (fun s e => ∀ t, srtpRead s e = some t →
      Transfer.Transfers giving buffer s e t)
        (Transfer.init buffer length) rs ↔
      Machine.Meets srtpRead (Transfer.Progresses giving) (Transfer.init buffer length) rs) ∧
    (Machine.Meets srtpSendto (fun s e => ∀ t, srtpSendto s e = some t →
      Transfer.Transfers taking buffer s e t)
        (Transfer.init buffer length) ss ↔
      Machine.Meets srtpSendto (Transfer.Progresses taking) (Transfer.init buffer length) ss) :=
  ⟨Transfer.meets_transfers_iff taking hlen ws, Transfer.meets_transfers_iff giving hlen rs,
    Transfer.meets_transfers_iff taking hlen ss⟩

/-- Two calls that move one byte and two. -/
theorem transfer_loops_two_calls :
    Machine.Meets srtpWrite (fun s e => ∀ t, srtpWrite s e = some t →
      Transfer.Transfers taking [1, 2, 3] s e t) (Transfer.init [1, 2, 3] 3) [1, 2] := by
  refine (transfer_loops_iff [1, 2, 3] 3 (by decide) [1, 2] [] []).1.mpr ?_
  refine .cons rfl (fun _ h => absurd h (by decide)) (.cons rfl (fun _ _ => by decide) trivial)

/-- A call that fails after two bytes: the second byte is sent once more, and the value is `3` for
four bytes.  And a call that gives `0` after two bytes leads to another one. -/
theorem byte_sent_twice :
    (∃ t, Machine.exec srtpWrite (Transfer.init [1, 2, 3] 3) [2, -1, 2] = some t ∧
      t.moved = [1, 2, 2, 3] ∧
      t.returned = some 3) ∧
    (∃ t, Machine.exec srtpRead (Transfer.init [0, 0, 0] 3) [some [1, 2], some []] = some t ∧
      t.returned = none) ∧
    ¬ Machine.Meets srtpWrite (fun s e => ∀ t, srtpWrite s e = some t →
      Transfer.Transfers taking [1, 2, 3] s e t) (Transfer.init [1, 2, 3] 3) [2, -1] := by
  refine ⟨⟨_, rfl, rfl, rfl⟩, ⟨_, rfl, rfl⟩, fun h => ?_⟩
  have hcall := (h.2 _ rfl).1 _ rfl
  exact absurd (hcall.stops.mpr (Or.inl (by decide))) (by decide)

end FortyTwoHundred.Srtp
