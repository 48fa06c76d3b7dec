import Mathlib.Data.List.Basic

/-!
# SeqNum — 16-bit sequence numbers of an unbounded count

A party that numbers items `0, 1, 2, …` in a 16-bit field sends `UInt16.ofNat i` for item `i`.  The
field tells two items apart as long as they are less than `2 ^ 16` apart (`ofNat_inj_of_close`).
-/

namespace SeqNum

theorem ofNat_eq_iff {i j : ℕ} : UInt16.ofNat i = UInt16.ofNat j ↔ i % 65536 = j % 65536 := by
  rw [← UInt16.toNat_inj]
  simp

theorem ofNat_succ (i : ℕ) : UInt16.ofNat (i + 1) = UInt16.ofNat i + 1 := by
  rw [UInt16.ofNat_add]
  rfl

theorem ofNat_add_sub (i k : ℕ) : UInt16.ofNat (i + k) - UInt16.ofNat k = UInt16.ofNat i := by
  rw [UInt16.ofNat_add, UInt16.add_sub_cancel]

/-- Items less than `2 ^ 16` apart have different numbers. -/
theorem ofNat_inj_of_close {i j : ℕ} (h1 : i < j + 65536) (h2 : j < i + 65536)
    (h : UInt16.ofNat i = UInt16.ofNat j) : i = j := by
  rw [ofNat_eq_iff] at h
  omega

end SeqNum
