import FortyTwoHundred.Lib.StableSort
import FortyTwoHundred.Srtp.InOrder

/-!
# Inbox — the packets that `handle_data_pkt` holds back

A packet that does not have the expected number is put in the inbox, before the first message with a
greater number or at the end.  The number of a message has 32 bits and that of a packet 16, so the
comparison is one of the packets' numbers.
-/

namespace FortyTwoHundred.Srtp

variable {bo : ByteOrder}

/-- The message for a packet: a copy of its payload, its length and its number. -/
def mesgOf (bo : ByteOrder) (p : Bytes × (ℕ → Byte)) : Mesg :=
  ⟨takenPayload bo p.1 p.2, (header bo p.1).len.toNat, (header bo p.1).seq.toUInt32⟩

/-- The messages of the packets whose number is not the expected one when they arrive; `sequence` is
expected first, and the next number after each packet that has the expected one. -/
def heldBack (bo : ByteOrder) : List (Bytes × (ℕ → Byte)) → UInt32 → List Mesg
  | [], _ => []
  | p :: ps, sequence =>
    if sequence = (header bo p.1).seq.toUInt32 then heldBack bo ps (sequence + 1)
    else mesgOf bo p :: heldBack bo ps sequence

/-- The key of the inbox. -/
abbrev Mesg.number (m : Mesg) : ℕ := m.seq.toNat

/-- The loop of `handle_data_pkt` is the insertion behind all messages with the same number. -/
theorem insertMesg_eq (m : Mesg) (xs : List Mesg) :
    insertMesg m xs = StableSort.insert Mesg.number m xs := by
  induction xs with
  | nil => rfl
  | cons x xs ih =>
    rw [insertMesg, StableSort.insert, List.orderedInsert_cons, ih]
    by_cases h : m.seq < x.seq
    · rw [if_pos h, if_pos (UInt32.lt_iff_toNat_lt.mp h)]
    · rw [if_neg h, if_neg fun hlt => h (UInt32.lt_iff_toNat_lt.mpr hlt)]
      rfl

theorem sorted_handleDataPkts (ps : List (Bytes × (ℕ → Byte))) (conn : Conn) (before : List Mesg)
    (h : StableSort.Sorted Mesg.number before conn.inbox) :
    StableSort.Sorted Mesg.number (before ++ heldBack bo ps conn.sequence)
    (handleDataPkts bo ps conn).1.inbox := by
  induction ps generalizing conn before with
  | nil =>
    rw [heldBack, List.append_nil]
    exact h
  | cons p ps ih =>
    rw [handleDataPkts, handleDataPkt, heldBack]
    dsimp only
    by_cases hseq : conn.sequence = (header bo p.1).seq.toUInt32
    · rw [if_pos hseq, if_pos hseq]
      exact ih { conn with sequence := conn.sequence + 1 } before h
    · rw [if_neg hseq, if_neg hseq, insertMesg_eq]
      have hone := ih { conn with inbox := StableSort.insert Mesg.number (mesgOf bo p) conn.inbox }
        _ (h.insert (mesgOf bo p))
      rw [List.append_assoc, List.singleton_append] at hone
      exact hone

/-- **The order of the inbox**: after any packets on a connection whose inbox was empty, the inbox
is the list of the packets that did not have the expected number when they arrived, sorted by their
numbers, and those with the same number in their order of arrival. -/
theorem inbox_sorted (bo : ByteOrder) (ps : List (Bytes × (ℕ → Byte))) (conn : Conn)
    (h : conn.inbox = []) : StableSort.Sorted Mesg.number (heldBack bo ps conn.sequence)
    (handleDataPkts bo ps conn).1.inbox := by
  have hempty : StableSort.Sorted Mesg.number [] conn.inbox := by
    rw [h]
    exact StableSort.sorted_nil
  exact sorted_handleDataPkts ps conn [] hempty

/-- Packets `2`, `1`, `0` and again `1`: packet `0` is the expected one. -/
theorem inbox_sorted_four :
    (heldBack .little [onePacket 2, onePacket 1, onePacket 0, onePacket 1] 0).map Mesg.number =
      [2, 1] ∧
      StableSort.Sorted Mesg.number
        (heldBack .little [onePacket 2, onePacket 1, onePacket 0, onePacket 1] 0)
        (handleDataPkts .little [onePacket 2, onePacket 1, onePacket 0, onePacket 1]
          ⟨0, []⟩).1.inbox :=
  ⟨by decide +kernel, inbox_sorted .little _ ⟨0, []⟩ rfl⟩

end FortyTwoHundred.Srtp
