import Mathlib.Data.List.Sort

/-!
# StableSort — insertion behind the elements with the same key

An element is inserted before the first one with a greater key: this is `List.orderedInsert` for the
strict order of the keys.  A list built so is sorted, and elements with the same key are in the
order they came in.
-/

namespace StableSort

variable {α κ : Type*} [LinearOrder κ] (key : α → κ)

/-- Insertion before the first element with a greater key. -/
def insert (x : α) (xs : List α) : List α := xs.orderedInsert (fun a b => key a < key b) x

/-- `xs` is the list of the arrivals, sorted by their keys, and those with the same key in their
order of arrival. -/
structure Sorted (arrivals xs : List α) : Prop where
  sorted : xs.Pairwise fun a b => key a ≤ key b
  stable : ∀ k, xs.filter (fun x => decide (key x = k)) = arrivals.filter fun x =>
    decide (key x = k)
  perm : xs.Perm arrivals

variable {key} {x : α} {xs arrivals : List α}

theorem sorted_nil : Sorted key [] [] := ⟨List.Pairwise.nil, fun _ => rfl, List.Perm.refl _⟩

theorem pairwise_insert (h : xs.Pairwise fun a b => key a ≤ key b) :
    (insert key x xs).Pairwise fun a b => key a ≤ key b := by
  induction xs with
  | nil => exact List.pairwise_singleton _ _
  | cons y ys ih =>
    obtain ⟨hy, hys⟩ := List.pairwise_cons.mp h
    rw [insert, List.orderedInsert_cons]
    split_ifs with hlt
    · refine List.pairwise_cons.mpr ⟨fun z hz => ?_, h⟩
      rcases List.mem_cons.mp hz with rfl | hz
      · exact hlt.le
      · exact hlt.le.trans (hy z hz)
    · refine List.pairwise_cons.mpr ⟨fun z hz => ?_, ih hys⟩
      rcases (List.mem_orderedInsert _).mp hz with rfl | hz
      · exact not_lt.mp hlt
      · exact hy z hz

/-- In a sorted list the new element comes last among those with its key. -/
theorem filter_insert (h : xs.Pairwise fun a b => key a ≤ key b) (k : κ) :
    (insert key x xs).filter (fun x => decide (key x = k)) = (xs ++ [x]).filter fun x =>
      decide (key x = k) := by
  induction xs with
  | nil => rfl
  | cons y ys ih =>
    obtain ⟨hy, hys⟩ := List.pairwise_cons.mp h
    rw [insert, List.orderedInsert_cons]
    split_ifs with hlt
    · -- all keys from here on are greater than that of `x`
      have hgt : ∀ z ∈ y :: ys, key x < key z := by
        intro z hz
        rcases List.mem_cons.mp hz with rfl | hz
        · exact hlt
        · exact hlt.trans_le (hy z hz)
      set p : α → Bool := fun z => decide (key z = k)
      by_cases hk : key x = k
      · have hx : p x = true := decide_eq_true hk
        have hnone : (y :: ys).filter p = [] := by
          refine List.filter_eq_nil_iff.mpr fun z hz => ?_
          rw [decide_eq_true_iff, ← hk]
          exact (hgt z hz).ne'
        rw [List.filter_cons_of_pos hx, List.filter_append, hnone, List.nil_append,
          List.filter_cons_of_pos hx,
          List.filter_nil]
      · have hx : ¬ p x = true := by rwa [decide_eq_true_iff]
        rw [List.filter_cons_of_neg hx, List.filter_append, List.filter_cons_of_neg hx,
          List.filter_nil, List.append_nil]
    · have hrec := ih hys
      rw [insert] at hrec
      rw [List.cons_append, List.filter_cons, List.filter_cons, hrec]

/-- **One more arrival.** -/
theorem Sorted.insert (h : Sorted key arrivals xs) (x : α) :
    Sorted key (arrivals ++ [x]) (insert key x xs) := by
  refine ⟨pairwise_insert h.sorted, fun k => ?_, ?_⟩
  · rw [filter_insert h.sorted, List.filter_append, List.filter_append, h.stable]
  · exact (List.perm_orderedInsert _ x xs).trans
      ((h.perm.cons x).trans (List.perm_append_singleton x arrivals).symm)

end StableSort
