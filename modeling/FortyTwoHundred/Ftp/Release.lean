import Mathlib.Data.List.TakeWhile
import FortyTwoHundred.Ftp.Client

/-!
# Release — cumulative acknowledgements

The numbers of the window are consecutive, `f, f + 1, …` modulo `2 ^ 16`.  An `ACK` with the number
`f + k`, for a `k` of at most the length of the window, is meant to take the first `k` packets off
the list; every other number is stale and is meant to leave the client as it is.

The release loop stops at a packet that has the acknowledged number, and its range test never stops
it (`not_outside`).  So the first half holds, and a stale number empties the window instead
(`cumulativeAck_iff`).
-/

namespace FortyTwoHundred.Ftp

namespace Client

variable {φ : Type}

/-- A window: at least one packet and at most `windowSize`, with consecutive numbers from `f` on. -/
structure Consecutive (f : UInt16) (c : Client φ) : Prop where
  nonempty : c.packets ≠ []
  length : c.packets.length ≤ windowSize
  number : ∀ i p, c.packets[i]? = some p → getSeqNum p = f + UInt16.ofNat i

/-- Lengths of the payloads of a list of packets. -/
def lengths (ps : List Bytes) : ℕ := (ps.map fun p => (getLen p).toNat).sum

/-- What processing the number `a` is meant to do to a window that starts at `f`. -/
def CumulativeAck (f a : UInt16) (now : ℤ) (c : Client φ) : Prop :=
  (∀ k ≤ c.packets.length, a = f + UInt16.ofNat k →
      (release a now c).packets = c.packets.drop k ∧
      (release a now c).removed = c.removed ++ c.packets.take k ∧
      (release a now c).written = c.written + lengths (c.packets.take k)) ∧
    ((∀ k ≤ c.packets.length, a ≠ f + UInt16.ofNat k) → release a now c = c)

/-- `written` counts what the loop removes. -/
theorem release_written (a : UInt16) (now : ℤ) (c : Client φ) :
    (release a now c).written = c.written + lengths (c.packets.takeWhile (getSeqNum · != a)) := by
  have key : ∃ qs, (release a now c).removed = c.removed ++ qs ∧
      (release a now c).written = c.written + lengths qs := by
    refine release_induct (I := fun d => ∃ qs, d.removed = c.removed ++ qs ∧
      d.written = c.written + lengths qs)
      ?_ ⟨[], by simp, by simp [lengths]⟩
    rintro d p ps ⟨qs, hr, hw⟩ - -
    refine ⟨qs ++ [p], by simp [removeFront, hr], ?_⟩
    show d.written + ((getLen p).toNat : ℤ) = _
    simp only [hw, lengths, List.map_append, List.sum_append]
    push_cast
    simp [add_assoc]
  obtain ⟨qs, hr, hw⟩ := key
  have hqs : qs = c.packets.takeWhile (getSeqNum · != a) := by
    rw [(release_packets a now c).2] at hr
    exact (List.append_cancel_left hr).symm
  rw [hw, hqs]

section Window

variable {f a : UInt16} {c : Client φ} (h : Consecutive f c)
include h

/-- Below the acknowledged number no packet of the window has it. -/
theorem Consecutive.ne_of_lt {i k : ℕ} {p : Bytes} (hk : k ≤ c.packets.length) (hi : i < k)
    (hp : c.packets[i]? = some p) : getSeqNum p ≠ f + UInt16.ofNat k := by
  rw [h.number i p hp]
  intro e
  have hlen : c.packets.length ≤ 50 := h.length
  have hik : UInt16.ofNat i = UInt16.ofNat k := UInt16.add_right_inj f |>.mp e
  have := SeqNum.ofNat_inj_of_close (by omega) (by omega) hik
  omega

/-- The loop stops at the packet with the acknowledged number, or at the end of the list. -/
theorem Consecutive.findIdx {k : ℕ} (hk : k ≤ c.packets.length) :
    c.packets.findIdx (getSeqNum · == f + UInt16.ofNat k) = k := by
  have hbelow : ∀ i (hi : i < k), (getSeqNum (c.packets.get ⟨i, by omega⟩) == f + UInt16.ofNat k) =
      false := by
    intro i hi
    rw [beq_eq_false_iff_ne]
    exact h.ne_of_lt hk hi (List.getElem?_eq_getElem _)
  rcases Nat.lt_or_ge k c.packets.length with hlt | hge
  · rw [List.findIdx_eq hlt]
    refine ⟨?_, fun i hi => hbelow i hi⟩
    rw [beq_iff_eq]
    exact h.number k _ (List.getElem?_eq_getElem hlt)
  · have hkn : k = c.packets.length := le_antisymm hk hge
    rw [hkn, List.findIdx_eq_length]
    intro p hp
    obtain ⟨i, hi, rfl⟩ := List.mem_iff_getElem.mp hp
    rw [← hkn]
    exact hbelow i (hkn ▸ hi)

theorem Consecutive.dropWhile {k : ℕ} (hk : k ≤ c.packets.length) :
    c.packets.dropWhile (getSeqNum · != f + UInt16.ofNat k) = c.packets.drop k ∧
      c.packets.takeWhile (getSeqNum · != f + UInt16.ofNat k) = c.packets.take k := by
  have hneg : (fun p : Bytes => !(getSeqNum p != f + UInt16.ofNat k)) =
      (getSeqNum · == f + UInt16.ofNat k) := by
    funext p
    simp [bne]
  rw [List.dropWhile_eq_drop_findIdx_not, List.takeWhile_eq_take_findIdx_not, hneg, h.findIdx hk]
  exact ⟨rfl, rfl⟩

/-- A number that no packet of the window has takes the whole list. -/
theorem Consecutive.packets_of_stale (hs : ∀ k ≤ c.packets.length, a ≠ f + UInt16.ofNat k)
    (now : ℤ) : (release a now c).packets = [] := by
  rw [(release_packets a now c).1, List.dropWhile_eq_nil_iff]
  intro p hp
  obtain ⟨i, hi, rfl⟩ := List.mem_iff_getElem.mp hp
  rw [h.number i _ (List.getElem?_eq_getElem hi), bne_iff_ne]
  exact (hs i hi.le).symm

end Window

/-- The number `a` is one of `f, …, f + n`. -/
theorem in_window_iff {f a : UInt16} {n : ℕ} :
    (a - f).toNat ≤ n ↔ ∃ k ≤ n, a = f + UInt16.ofNat k := by
  constructor
  · intro hk
    refine ⟨(a - f).toNat, hk, ?_⟩
    rw [UInt16.ofNat_toNat, UInt16.add_comm, UInt16.sub_add_cancel]
  · rintro ⟨k, hk, rfl⟩
    rw [UInt16.add_comm, UInt16.add_sub_cancel, UInt16.toNat_ofNat']
    exact (Nat.mod_le _ _).trans hk

/-- **Cumulative acknowledgements**: the release loop does what an acknowledgement means exactly if
the number is one of `f, …, l + 1`; any other number drops the whole window as if it were
delivered. -/
theorem cumulativeAck_iff (f a : UInt16) (now : ℤ) (c : Client φ) (h : Consecutive f c) :
    CumulativeAck f a now c ↔ (a - f).toNat ≤ c.packets.length := by
  rw [in_window_iff]
  constructor
  · intro hcum
    by_contra hs
    push Not at hs
    have hsame : (release a now c).packets = c.packets := by rw [hcum.2 hs]
    exact h.nonempty (hsame.symm.trans (h.packets_of_stale hs now))
  · rintro ⟨j, hj, rfl⟩
    refine ⟨fun k hk e => ?_, fun hs => absurd rfl (hs j hj)⟩
    obtain ⟨hd, ht⟩ := h.dropWhile hk
    rw [e, (release_packets _ now c).1, (release_packets _ now c).2, release_written, hd, ht]
    exact ⟨rfl, rfl, rfl⟩

/-- A client whose window is the packets 5 and 6. -/
def twoPackets : Client Bytes :=
  { Client.init [] 2 [97] 0 with
    pc := .drain
    sequence := 7
    packets := [createPacket cmdData 5 1 [104], createPacket cmdData 6 1 [105]] }

theorem consecutive_twoPackets : Consecutive 5 twoPackets := by
  refine ⟨by simp [twoPackets], by decide, ?_⟩
  intro i p hp
  match i with
  | 0 => rw [← Option.some.inj hp, getSeqNum_createPacket]; rfl
  | 1 => rw [← Option.some.inj hp, getSeqNum_createPacket]; rfl
  | i + 2 => simp [twoPackets] at hp

/-- The second of the two packets is acknowledged by 7, the first by 6. -/
theorem cumulativeAck_twoPackets :
    CumulativeAck 5 7 0 twoPackets ∧ CumulativeAck 5 6 0 twoPackets :=
  ⟨(cumulativeAck_iff 5 7 0 twoPackets consecutive_twoPackets).mpr (by decide),
    (cumulativeAck_iff 5 6 0 twoPackets consecutive_twoPackets).mpr (by decide)⟩

/-- A duplicate of the acknowledgement 4, which an earlier window had, empties the window and counts
both packets as written. -/
theorem stale_ack_drops_window :
    Consecutive 5 twoPackets ∧ ¬ CumulativeAck 5 4 0 twoPackets ∧
    (release 4 0 twoPackets).packets = [] ∧
      (release 4 0 twoPackets).written = 2 := by
  have hstale : ∀ k ≤ twoPackets.packets.length, (4 : UInt16) ≠ 5 + UInt16.ofNat k := by decide
  have hempty := consecutive_twoPackets.packets_of_stale hstale 0
  refine ⟨consecutive_twoPackets, fun h => ?_, hempty, by decide⟩
  rw [h.2 hstale] at hempty
  exact consecutive_twoPackets.nonempty hempty

end Client

end FortyTwoHundred.Ftp
