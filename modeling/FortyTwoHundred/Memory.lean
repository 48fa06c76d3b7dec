import Mathlib.Data.List.GetD

/-!
# Memory — blocks of bytes

Both programs of the repository receive into a block of memory that keeps its old contents
(`overlay`), and read from it at an offset and with a length that a packet gives; such a read can
go past the end of the block (`peek`).
-/

namespace FortyTwoHundred

abbrev Byte := UInt8
abbrev Bytes := List UInt8

instance : LawfulBEq Bytes := inferInstance

/-- Bytes stored at the start of a block of memory. -/
def overlay (bs mem : Bytes) : Bytes := bs ++ mem.drop bs.length

/-- Bytes stored at an offset in a block of memory. -/
def poke (off : ℕ) (bs mem : Bytes) : Bytes := mem.take off ++ bs ++ mem.drop (off + bs.length)

/-- Bytes `off, …, off + n - 1` of a buffer; past its end they are what memory holds there. -/
def peek (buffer : Bytes) (beyond : ℕ → Byte) (off n : ℕ) : Bytes :=
  (buffer.drop off).take n ++
    (List.range (n - (buffer.length - off))).map fun i => beyond (off - buffer.length + i)

@[simp] theorem length_peek (buffer : Bytes) (beyond : ℕ → Byte) (off n : ℕ) :
    (peek buffer beyond off n).length = n := by
  simp [peek]; omega

theorem peek_of_le {buffer : Bytes} {beyond : ℕ → Byte} {off n : ℕ} (h : off + n ≤ buffer.length) :
    peek buffer beyond off n = (buffer.drop off).take n := by
  have : n - (buffer.length - off) = 0 := by omega
  simp [peek, this]

theorem getD_overlay {bs mem : Bytes} {i : ℕ} (h : i < bs.length) :
    (overlay bs mem).getD i 0 = bs.getD i 0 := by
  rw [overlay, List.getD_append _ _ _ _ h]

theorem length_poke {off : ℕ} {bs mem : Bytes} (h : off + bs.length ≤ mem.length) :
    (poke off bs mem).length = mem.length := by
  simp only [poke, List.length_append, List.length_take, List.length_drop]
  omega

theorem take_poke {off : ℕ} {bs mem : Bytes} (h : off ≤ mem.length) :
    (poke off bs mem).take (off + bs.length) = mem.take off ++ bs := by
  rw [poke, List.take_left']
  rw [List.length_append, List.length_take, Nat.min_eq_left h]

theorem drop_poke {off : ℕ} {bs mem : Bytes} (h : off ≤ mem.length) :
    (poke off bs mem).drop (off + bs.length) = mem.drop (off + bs.length) := by
  rw [poke, List.drop_left']
  rw [List.length_append, List.length_take, Nat.min_eq_left h]

/-- The end of a block is replaced. -/
theorem poke_append {a b c : Bytes} (h : c.length = b.length) :
    poke a.length c (a ++ b) = a ++ c := by
  rw [poke, List.take_left, h, ← List.length_append, List.drop_length, List.append_nil]

end FortyTwoHundred
