import Mathlib.Algebra.BigOperators.Group.List.Basic
import Mathlib.Algebra.GroupWithZero.Nat

/-!
# Padding — empty chunks in a list of chunk lengths

A file of `size` bytes is sent in chunks, of which `ls` are the lengths in order.  `Late size ls`
says that an empty chunk is cut only after `size` bytes.  While less than `size` bytes have been
taken off the front of the list, all empty chunks are in the rest of it, and not the rest alone
consists of empty chunks (`Late.count_lt`).
-/

namespace Padding

/-- Before every zero of the list there are `size` bytes. -/
def Late (size : ℕ) (ls : List ℕ) : Prop := ∀ pre post, ls = pre ++ 0 :: post → size ≤ pre.sum

variable {size x : ℕ} {ls rs ps : List ℕ}

theorem late_nil (size : ℕ) : Late size [] := by
  intro pre post h
  simp at h

/-- One more chunk, which may be empty if all bytes have been cut. -/
theorem Late.concat (h : Late size ls) (hx : x = 0 → size ≤ ls.sum) : Late size (ls ++ [x]) := by
  intro pre post hsplit
  rcases List.eq_nil_or_concat post with rfl | ⟨post', y, rfl⟩
  · obtain ⟨rfl, hx0⟩ := List.append_inj' hsplit rfl
    exact hx (List.singleton_inj.mp hx0)
  · rw [List.concat_eq_append, ← List.cons_append, ← List.append_assoc] at hsplit
    exact h pre post' (List.append_inj' hsplit rfl).1

theorem Late.zero_notMem (h : Late size (rs ++ ps)) (hrs : rs.sum < size) : 0 ∉ rs := by
  intro hmem
  obtain ⟨pre, post, rfl⟩ := List.append_of_mem hmem
  have hle := h pre (post ++ ps) (by simp)
  have hsum : (pre ++ 0 :: post).sum = pre.sum + post.sum := by simp
  omega

theorem count_zero_lt (h : 0 < ps.sum) : ps.count 0 < ps.length := by
  refine Nat.lt_of_le_of_ne List.count_le_length fun heq => ?_
  have hall := List.count_eq_length.mp heq
  have hsum : ps.sum = 0 := List.sum_eq_zero fun y hy => (hall y hy).symm
  omega

/-- **Padding is bounded by the rest of the list.** -/
theorem Late.count_lt (h : Late size (rs ++ ps)) (h1 : rs.sum < size) (h2 : size ≤ (rs ++ ps).sum) :
    (rs ++ ps).count 0 < ps.length := by
  rw [List.sum_append] at h2
  rw [List.count_append, List.count_eq_zero.mpr (h.zero_notMem h1), zero_add]
  apply count_zero_lt
  omega

end Padding
