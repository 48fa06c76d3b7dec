import Mathlib.Data.List.Basic
import Mathlib.Tactic.Ring

/-!
# Chunk — cutting a list into pieces of one width

`chunk w xs i` is the `i`-th piece of width `w` of `xs` (shorter at the end, empty past it).  The
first `n` pieces are the first `w * n` elements (`flatMap_chunk`), so the pieces tile the list in
order.
-/

namespace Chunk

variable {α : Type*} (w : ℕ) (xs : List α)

/-- The `i`-th piece of width `w` of `xs`. -/
def chunk (i : ℕ) : List α := (xs.drop (w * i)).take w

@[simp] theorem length_chunk (i : ℕ) : (chunk w xs i).length = min w (xs.length - w * i) := by
  simp [chunk]

theorem length_chunk_le (i : ℕ) : (chunk w xs i).length ≤ w := by
  rw [length_chunk]; exact min_le_left _ _

/-- The first `n + 1` pieces are the first `n` and the next. -/
theorem take_append_chunk (n : ℕ) : xs.take (w * n) ++ chunk w xs n = xs.take (w * (n + 1)) := by
  rw [chunk, Nat.mul_succ, List.take_add]

/-- The first `n` pieces in order are the first `w * n` elements. -/
theorem flatMap_chunk (n : ℕ) : (List.range n).flatMap (chunk w xs) = xs.take (w * n) := by
  induction n with
  | zero => simp
  | succ n ih =>
    rw [List.range_succ, List.flatMap_append, ih, List.flatMap_singleton, take_append_chunk]

end Chunk
